import Kintane.Kobject.Handle

/-!
# The object store

Kernel objects found by identity, alive while referenced. A store has a fixed number of
slots, each free, holding a live or a retiring object, or worn out. The count of a slot's
references is the store's own, while the object is live, and one for each `ObjRef`. The slot
is vacated when the count reaches zero, its generation moves on, and the object is given to
its owner's `destroy`, which runs after the store's lock is released.

A `Locator` keeps a slot's number in 32 bits. The store itself numbers its slots with a
`usize`, and nothing bounds it.
-/

namespace Kintane

inductive StoreError where
  | notFound
  | retiring
  | wrongType (expected found : ObjectType)
  | handle (e : HandleError)
  | tooManyRefs
  | full
  | duplicate
  deriving DecidableEq

structure Locator where
  index : Nat
  generation : Nat
  deriving DecidableEq

inductive ObjState (T : Type) where
  | free
  | live (object : T)
  | retiring (object : T)
  /-- The generation ran out; never reused. -/
  | worn

/-- `State::Live(_) | State::Retiring(_)`. -/
def ObjState.held {T : Type} : ObjState T → Bool
  | .live _ | .retiring _ => true
  | .free | .worn => false

def ObjState.isLive {T : Type} : ObjState T → Bool
  | .live _ => true
  | _ => false

def ObjState.isFree {T : Type} : ObjState T → Bool
  | .free => true
  | _ => false

structure ObjSlot (T : Type) where
  generation : Nat
  id : Nat
  kind : ObjectType
  refs : Nat
  state : ObjState T

/-- A counted reference, or one counted in and not yet wrapped. -/
structure ObjRef (T : Type) where
  index : Nat
  id : Nat
  kind : ObjectType
  object : T

structure ObjectStore (T : Type) where
  slots : List (ObjSlot T)
  live : Nat

variable {T : Type}

namespace ObjectStore

def new (T : Type) (n : Nat) : ObjectStore T :=
  ⟨List.replicate n ⟨0, 0, .event, 0, .free⟩, 0⟩

variable (t : ObjectStore T)

def find (id : Nat) : Option Nat := t.slots.findIdx? fun s => s.id == id && s.state.held

/-- Add `object`, of type `kind`, under identity `id`, held by the store. -/
def insert (id : Nat) (kind : ObjectType) (object : T) : ObjectStore T × Except StoreError Locator :=
  if (t.find id).isSome then (t, .error .duplicate)
  else match t.slots.findIdx? (·.state.isFree) with
    | none => (t, .error .full)
    | some index =>
      match t.slots[index]? with
      | none => (t, .error .full)
      | some slot =>
        (⟨t.slots.set index ⟨slot.generation, id, kind, 1, .live object⟩, t.live + 1⟩,
          .ok ⟨index % 2 ^ 32, slot.generation⟩)

def acquire (index : Nat) : ObjectStore T × Except StoreError (ObjRef T) :=
  match t.slots[index]? with
  | none => (t, .error .notFound)
  | some slot =>
    match slot.state with
    | .retiring _ => (t, .error .retiring)
    | .free | .worn => (t, .error .notFound)
    | .live object =>
      match checkedAdd u32Max slot.refs 1 with
      | none => (t, .error .tooManyRefs)
      | some refs =>
        (⟨t.slots.set index { slot with refs }, t.live⟩,
          .ok ⟨index, slot.id, slot.kind, object⟩)

def get (id : Nat) : ObjectStore T × Except StoreError (ObjRef T) :=
  match t.find id with
  | none => (t, .error .notFound)
  | some index => t.acquire index

/-- Find the object at a locator, which must still be `id`, and take a reference to it. -/
def getAt (loc : Locator) (id : Nat) : ObjectStore T × Except StoreError (ObjRef T) :=
  match t.slots[loc.index]? with
  | none => (t, .error .notFound)
  | some slot =>
    if slot.generation ≠ loc.generation ∨ slot.id ≠ id then (t, .error .notFound)
    else t.acquire loc.index

/-- Resolve a handle to the object it names, and the reference that is still to be dropped
when the object turns out to be of another type. -/
def resolve (table : HandleTable) (h : Handle) (kind : ObjectType) (required : Rights) :
    ObjectStore T × Except StoreError (ObjRef T) × Option (ObjRef T) :=
  match table.getChecked h kind required with
  | .error e => (t, .error (.handle e), none)
  | .ok entry =>
    match t.get entry.object with
    | (t', .error e) => (t', .error e, none)
    | (t', .ok r) =>
      if r.kind ≠ kind then (t', .error (.wrongType kind r.kind), some r)
      else (t', .ok r, none)

/-- Drop one reference from slot `index`; the object to destroy if that was the last. -/
def release (index : Nat) : ObjectStore T × Option (Nat × T) :=
  match t.slots[index]? with
  | none => (t, none)
  | some slot =>
    match checkedSub slot.refs 1 with
    | none => (t, none)
    | some refs =>
      if refs ≠ 0 then (⟨t.slots.set index { slot with refs }, t.live⟩, none)
      else match slot.state with
        | .retiring object =>
          let generation := (slot.generation + 1) % 2 ^ 32
          let state := if u32Max ≤ generation then .worn else .free
          (⟨t.slots.set index { slot with refs, generation, state }, t.live - 1⟩,
            some (slot.id, object))
        | _ => (⟨t.slots.set index { slot with refs }, t.live⟩, none)

/-- Give up the store's reference to `id`; the object to destroy if it was the last. -/
def retire (id : Nat) : ObjectStore T × Except StoreError (Option (Nat × T)) :=
  match t.find id with
  | none => (t, .error .notFound)
  | some index =>
    match t.slots[index]? with
    | none => (t, .error .notFound)
    | some slot =>
      match slot.state with
      | .live object =>
        let (t', destroyed) :=
          release ⟨t.slots.set index { slot with state := .retiring object }, t.live⟩ index
        (t', .ok destroyed)
      | _ => (t, .error .retiring)

def tryClone (r : ObjRef T) : ObjectStore T × Except StoreError (ObjRef T) :=
  match t.slots[r.index]? with
  | none => (t, .error .notFound)
  | some slot =>
    match checkedAdd u32Max slot.refs 1 with
    | none => (t, .error .tooManyRefs)
    | some refs => (⟨t.slots.set r.index { slot with refs }, t.live⟩, .ok r)

end ObjectStore

/-! ## Threads over one store

Every operation is one critical section of the store's lock, except that `destroy` is called
after it, and that `resolve` drops the reference it does not return in one of its own. The
world keeps what the threads hold between two sections, and a history: the objects in the
order they were inserted, which of them each slot holds, the locators, what was retired, and
the calls of `destroy`. An object is named by its position in the history, because neither
an identity nor a `&T` is used for one insertion only. -/

/-- A call of `destroy`, and the insertion it is for. -/
structure DestroyCall (T : Type) where
  id : Nat
  object : T
  serial : Nat

structure StoreWorld (T : Type) where
  store : ObjectStore T
  /-- The `ObjRef`s not yet dropped, each with the insertion it was taken on. -/
  refs : List (ObjRef T × Nat)
  inserted : List (Nat × T)
  /-- The insertion a held slot is of. -/
  serial : Nat → Nat
  issued : List (Locator × Nat)
  /-- The insertions for which `retire` succeeded. -/
  retired : List Nat
  destroying : List (DestroyCall T)
  destroyed : List (DestroyCall T)

inductive StoreOp (T : Type) where
  | insert (id : Nat) (kind : ObjectType) (object : T)
  | get (id : Nat)
  | getAt (loc : Locator) (id : Nat)
  | resolve (table : HandleTable) (h : Handle) (kind : ObjectType) (required : Rights)
  | retire (id : Nat)
  | tryClone (position : Nat)
  | drop (position : Nat)
  | destroy (position : Nat)

namespace StoreWorld

def new (T : Type) (n : Nat) : StoreWorld T :=
  ⟨ObjectStore.new T n, [], [], fun _ => 0, [], [], [], []⟩

variable (w : StoreWorld T)

/-- The reference a critical section counted in, if any, is held from then on. -/
def hold (store : ObjectStore T) (taken : Option (ObjRef T)) : StoreWorld T :=
  { w with store, refs := taken.toList.map (fun r => (r, w.serial r.index)) ++ w.refs }

/-- The object a critical section vacated slot `index` of, if any, is to be destroyed. -/
def vacated (index : Nat) (object : Option (Nat × T)) : List (DestroyCall T) :=
  object.toList.map (fun o => ⟨o.1, o.2, w.serial index⟩) ++ w.destroying

/-- The world once the reference in hand to slot `index` is released. -/
def release (index : Nat) : StoreWorld T :=
  { w with
    store := (w.store.release index).1
    destroying := w.vacated index (w.store.release index).2 }

def step : StoreOp T → StoreWorld T
  | .insert id kind object =>
    match w.store.insert id kind object, w.store.slots.findIdx? (·.state.isFree) with
    | (store, .ok loc), some index =>
      { w with
        store
        inserted := w.inserted ++ [(id, object)]
        serial := Function.update w.serial index w.inserted.length
        issued := (loc, w.inserted.length) :: w.issued }
    | (store, _), _ => { w with store }
  | .get id => w.hold (w.store.get id).1 (w.store.get id).2.toOption
  | .getAt loc id => w.hold (w.store.getAt loc id).1 (w.store.getAt loc id).2.toOption
  | .resolve table h kind required =>
    let (store, found, wrong) := w.store.resolve table h kind required
    w.hold store (found.toOption.orElse fun _ => wrong)
  | .retire id =>
    match w.store.retire id, w.store.find id with
    | (store, .ok object), some index =>
      { w with
        store
        retired := w.serial index :: w.retired
        destroying := w.vacated index object }
    | (store, _), _ => { w with store }
  | .tryClone position =>
    match w.refs[position]? with
    | none => w
    | some (r, _) => w.hold (w.store.tryClone r).1 (w.store.tryClone r).2.toOption
  | .drop position =>
    match w.refs[position]? with
    | none => w
    | some (r, _) => release { w with refs := w.refs.eraseIdx position } r.index
  | .destroy position =>
    match w.destroying[position]? with
    | none => w
    | some call =>
      { w with
        destroying := w.destroying.eraseIdx position
        destroyed := call :: w.destroyed }

def run (n : Nat) (ops : List (StoreOp T)) : StoreWorld T := ops.foldl step (new T n)

def outstanding (k : Nat) : Nat := w.refs.countP fun r => r.2 == k

/-- What a caller of the store relies on. -/
structure Sound : Prop where
  /-- An object's count is its outstanding references, and one while it is not retired. -/
  counted : ∀ i s, w.store.slots[i]? = some s → s.state.held = true →
    s.refs = w.outstanding (w.serial i) + if w.serial i ∈ w.retired then 0 else 1
  /-- No object is destroyed twice, nor by two threads. -/
  once : ((w.destroyed ++ w.destroying).map (·.serial)).Nodup
  /-- It is destroyed as what was inserted, once retired and with no reference left. -/
  due : ∀ d ∈ w.destroyed ++ w.destroying, w.inserted[d.serial]? = some (d.id, d.object) ∧
    d.serial ∈ w.retired ∧ w.outstanding d.serial = 0
  /-- An object retired and with no reference left was destroyed, or a thread is about to. -/
  complete : ∀ k ∈ w.retired, w.outstanding k = 0 →
    ∃ d ∈ w.destroyed ++ w.destroying, d.serial = k
  /-- No lookup finds a retired object. -/
  get : ∀ id r, (w.store.get id).2 = .ok r → w.serial r.index ∉ w.retired
  getAt : ∀ loc id r, (w.store.getAt loc id).2 = .ok r → w.serial r.index ∉ w.retired
  resolve : ∀ table h kind required r,
    (w.store.resolve table h kind required).2.1 = .ok r → w.serial r.index ∉ w.retired
  /-- A locator finds no object inserted after the one it was issued for. -/
  located : ∀ loc k id r, (loc, k) ∈ w.issued → (w.store.getAt loc id).2 = .ok r →
    w.serial r.index ≤ k

end StoreWorld

end Kintane
