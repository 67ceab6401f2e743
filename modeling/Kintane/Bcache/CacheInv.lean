import Kintane.Bcache.Cache

/-!
# What the cache keeps

The view is what the trace has written over the device's first bytes. A valid slot holds its block
of the view, and the device holds every block that is not dirty. For each barrier of the trace, the
blocks changed before it that the device has not taken yet are dirty from an earlier generation
than any slot changed after it; since slots reach the device lowest generation first, none changed
after the barrier overtakes them.
-/

open List Function

namespace Kintane.Bcache

open Image

variable {n b lba : Nat} {bs : Nat} {disk0 : Nat → UInt8} {bytes : List UInt8} {i : Fin n} {w w' : World n}
  {x x' : Option (Fin n)}

/-! ## Traces -/

/-- What an event makes of the view. -/
def Event.show (bs : Nat) (v : Nat → UInt8) : Event → Nat → UInt8
  | .put lba within bytes => splice v (lba * bs + within) bytes
  | .through lba bytes => splice v (lba * bs) bytes
  | _ => v

/-- The last value written through the cache at each byte, or the device's first if none. -/
def view (bs : Nat) (disk0 : Nat → UInt8) (t : List Event) : Nat → UInt8 := t.foldl (Event.show bs) disk0

def Dirtied (t : List Event) (b : Nat) : Prop := ∃ within bytes, Event.put b within bytes ∈ t

/-- In `t` the device took a block, and the events `t1` that `t` begins with did not change it after
that. -/
def Wrote (t1 t : List Event) (b : Nat) (bytes : List UInt8) : Prop :=
  ∃ s1 e s2, t = s1 ++ e :: s2 ∧ (e = .back b bytes ∨ e = .through b bytes) ∧
    ¬Dirtied (t1.drop s1.length) b

/-- When the device takes a block that was changed after a barrier, it has every block that was
changed before that barrier, as it was then. -/
def Ordered (bs : Nat) (disk0 : Nat → UInt8) (t : List Event) : Prop :=
  ∀ t1 t2 t3 b bytes, t = t1 ++ .barrier :: (t2 ++ .back b bytes :: t3) → Dirtied t2 b →
    ∀ c, Dirtied t1 c → Wrote t1 (t1 ++ .barrier :: t2) c (block bs (view bs disk0 t1) c)

variable {t t' t1 t2 : List Event} {e : Event} {s : Slot}

theorem view_concat : view bs disk0 (t ++ [e]) = e.show bs (view bs disk0 t) := by
  rw [view, foldl_concat]
  rfl

theorem Wrote.append (h : Wrote t1 t b bytes) : Wrote t1 (t ++ t') b bytes := by
  obtain ⟨s1, e, s2, rfl, he, hlast⟩ := h
  exact ⟨s1, e, s2 ++ t', by simp, he, hlast⟩

theorem dirtied_concat : Dirtied (t ++ [e]) b ↔ Dirtied t b ∨ ∃ within bytes, e = .put b within bytes := by
  simp only [Dirtied, mem_append, mem_singleton, exists_or, eq_comm]

/-- It is not changed by a further event either, unless that is a change of it. -/
theorem Wrote.concat (h : Wrote t t b bytes) (he : ∀ within l, e ≠ .put b within l) :
    Wrote (t ++ [e]) (t ++ [e]) b bytes := by
  obtain ⟨s1, x, s2, rfl, hx, hlast⟩ := h
  refine ⟨s1, x, s2 ++ [e], by simp, hx, fun hd => ?_⟩
  rw [drop_append_of_le_length (by simp)] at hd
  obtain hd | ⟨within, l, heq⟩ := dirtied_concat.mp hd
  · exact hlast hd
  · exact he within l heq

/-- The device takes it now. -/
theorem Wrote.last (he : e = .back b bytes ∨ e = .through b bytes) (h : t1 <+: t ++ [e]) :
    Wrote t1 (t ++ [e]) b bytes := by
  refine ⟨t, e, [], rfl, he, ?_⟩
  rintro ⟨within, l, hmem⟩
  obtain ⟨t2, ht⟩ := h
  have : Event.put b within l ∈ (t ++ [e]).drop t.length := by
    rw [← ht, drop_append]
    exact mem_append_left _ hmem
  rw [drop_left, mem_singleton] at this
  rcases he with rfl | rfl <;> cases this

/-- A longer trace is split where the old one was, or at its last event. -/
theorem split_concat {x : Event} (h : t ++ [e] = t1 ++ x :: t2) :
    (∃ t3, t2 = t3 ++ [e] ∧ t = t1 ++ x :: t3) ∨ (t1 = t ∧ x = e ∧ t2 = []) := by
  rcases eq_nil_or_concat t2 with rfl | ⟨t3, y, rfl⟩
  · obtain ⟨ht, he⟩ := append_inj' h rfl
    exact .inr ⟨ht.symm, (List.cons.inj he).1.symm, rfl⟩
  · rw [concat_eq_append, ← cons_append, ← append_assoc] at h
    obtain ⟨ht, he⟩ := append_inj' h rfl
    exact .inl ⟨t3, by rw [(List.cons.inj he).1, concat_eq_append], ht⟩

/-- Only a block that the device takes can break the order. -/
theorem Ordered.concat (h : Ordered bs disk0 t)
    (hback : ∀ t1 t2 b bytes, e = .back b bytes → t = t1 ++ .barrier :: t2 → Dirtied t2 b →
      ∀ c, Dirtied t1 c → Wrote t1 (t1 ++ .barrier :: t2) c (block bs (view bs disk0 t1) c)) :
    Ordered bs disk0 (t ++ [e]) := by
  intro t1 t2 t3 b bytes heq
  rw [← cons_append, ← append_assoc] at heq
  rcases split_concat heq with ⟨t4, rfl, ht⟩ | ⟨ht, he, rfl⟩
  · rw [append_assoc, cons_append] at ht
    exact h t1 t2 t4 b bytes ht
  · exact hback t1 t2 b bytes he.symm ht.symm

/-! ## The dirty blocks -/

/-- A slot is dirty with this block, which was changed last in this generation. -/
def Dirty (slots : Fin n → Slot) (b g : Nat) : Prop :=
  ∃ i, (slots i).dirty = true ∧ (slots i).lba = b ∧ (slots i).generation = g

section

variable {slots : Fin n → Slot} {s : Slot} {g : Nat}

theorem Dirty.update (h : Dirty slots b g) (hb : b ≠ (slots i).lba) : Dirty (Function.update slots i s) b g := by
  obtain ⟨j, hj, rfl, rfl⟩ := h
  have hji : j ≠ i := fun heq => hb (by rw [heq])
  exact ⟨j, by rw [update_of_ne hji]; exact ⟨hj, rfl, rfl⟩⟩

theorem Dirty.of_update (h : Dirty (Function.update slots i s) b g) :
    (s.dirty = true ∧ s.generation = g) ∨
      ∃ j, j ≠ i ∧ (slots j).dirty = true ∧ (slots j).lba = b ∧ (slots j).generation = g := by
  obtain ⟨j, hj⟩ := h
  by_cases hji : j = i
  · rw [hji, update_self] at hj
    exact .inl ⟨hj.1, hj.2.2⟩
  · rw [update_of_ne hji] at hj
    exact .inr ⟨j, hji, hj⟩

/-- A slot changes and keeps its block. -/
theorem update_same (hs : s.lba = (slots i).lba ∧ s.valid = (slots i).valid) (j : Fin n) :
    (Function.update slots i s j).lba = (slots j).lba ∧ (Function.update slots i s j).valid = (slots j).valid := by
  by_cases hj : j = i
  · subst hj
    rwa [update_self]
  · rw [update_of_ne hj]
    exact ⟨rfl, rfl⟩

/-- No two slots have one block. -/
def Once (slots : Fin n → Slot) : Prop :=
  ∀ i j, (slots i).valid = true → (slots j).valid = true → (slots i).lba = (slots j).lba → i = j

theorem Once.update (h : Once slots) (hs : s.lba = (slots i).lba ∧ s.valid = (slots i).valid) :
    Once (Function.update slots i s) := by
  intro j k hj hk heq
  rw [(update_same hs _).2] at hj hk
  rw [(update_same hs j).1, (update_same hs k).1] at heq
  exact h j k hj hk heq

theorem valid_update (h : ∀ j, (slots j).dirty = true → (slots j).valid = true) (hv : (slots i).valid = true)
    (hs : s.lba = (slots i).lba ∧ s.valid = (slots i).valid) (j : Fin n)
    (hj : (Function.update slots i s j).dirty = true) : (Function.update slots i s j).valid = true := by
  rw [(update_same hs j).2]
  by_cases hji : j = i
  · rw [hji, hv]
  · rw [update_of_ne hji] at hj
    exact h j hj

end

/-- A barrier of the trace, with the events before and after it. From some generation on are the
blocks changed after it; those changed before it are on the device, or dirty below it and unchanged. -/
def Step (bs : Nat) (disk0 : Nat → UInt8) (D : Nat → Nat → Prop) (gen : Nat) (t t1 t2 : List Event) : Prop :=
  ∃ m ≤ gen,
    (∀ b, Dirtied t1 b → Wrote t1 t b (block bs (view bs disk0 t1) b) ∨
      (∃ g < m, D b g) ∧ block bs (view bs disk0 t) b = block bs (view bs disk0 t1) b) ∧
    ∀ b g, D b g → Dirtied t2 b → m ≤ g

/-- How a trace fits the blocks that are dirty. -/
structure Logged (bs : Nat) (disk0 : Nat → UInt8) (D : Nat → Nat → Prop) (gen : Nat) (t : List Event) : Prop where
  upto : ∀ {b g}, D b g → g ≤ gen
  settled : ∀ b, Dirtied t b → (∃ g, D b g) ∨ Wrote t t b (block bs (view bs disk0 t) b)
  steps : ∀ t1 t2, t = t1 ++ .barrier :: t2 → Step bs disk0 D gen t t1 t2
  ordered : Ordered bs disk0 t

/-- What an event does to a block of the view `v`: nothing, or the device takes it, or it is changed. -/
inductive Does (bs gen : Nat) (D D' : Nat → Nat → Prop) (v : Nat → UInt8) (e : Event) (b : Nat) : Prop where
  | keeps (hput : ∀ within l, e ≠ .put b within l) (hview : block bs (e.show bs v) b = block bs v b)
      (hd : ∀ g, D b g → D' b g)
  | takes (he : e = .back b (block bs (e.show bs v) b) ∨ e = .through b (block bs (e.show bs v) b))
      (hview : ∀ g, D b g → block bs (e.show bs v) b = block bs v b)
  | puts (hnew : D' b gen) (hold : ∀ g, D b g → g = gen)

section

variable {D D' : Nat → Nat → Prop} {gen : Nat}

theorem Logged.concat (h : Logged bs disk0 D gen t) (hne : e ≠ .barrier)
    (hdoes : ∀ b, Does bs gen D D' (view bs disk0 t) e b)
    (hnew : ∀ b g, D' b g → g = gen ∨ D b g ∧ ∀ within l, e ≠ .put b within l)
    (hback : ∀ b bytes, e = .back b bytes → ∃ g, D b g ∧ ∀ c g', D c g' → g ≤ g') :
    Logged bs disk0 D' gen (t ++ [e]) where
  upto hb := by
    rcases hnew _ _ hb with rfl | ⟨hb, -⟩
    · exact le_rfl
    · exact h.upto hb
  settled b hb := by
    rw [view_concat]
    cases hdoes b with
    | keeps hput hview hd =>
      have hb := (dirtied_concat.mp hb).resolve_right fun ⟨_, _, he⟩ => hput _ _ he
      rw [hview]
      exact (h.settled b hb).imp (fun ⟨g, hg⟩ => ⟨g, hd g hg⟩) fun hw => hw.concat hput
    | takes he _ => exact .inr (.last he (prefix_refl _))
    | puts hnew _ => exact .inl ⟨gen, hnew⟩
  steps t1 t2 heq := by
    obtain ⟨t3, rfl, ht⟩ | ⟨-, hbad, -⟩ := split_concat heq
    · obtain ⟨m, hm, hbefore, hafter⟩ := h.steps t1 t3 ht
      refine ⟨m, hm, fun b hb => ?_, fun b g hd hb => ?_⟩
      · rw [view_concat]
        rcases hbefore b hb with hw | ⟨⟨g, hlt, hg⟩, hview⟩
        · exact .inl hw.append
        cases hdoes b with
        | keeps _ hview' hd => exact .inr ⟨⟨g, hlt, hd g hg⟩, hview'.trans hview⟩
        | takes he hview' =>
          rw [hview' g hg, hview] at he
          exact .inl (.last he ⟨_, heq.symm⟩)
        | puts _ hold =>
          have := hold g hg
          omega
      · rcases hnew b g hd with rfl | ⟨hd, hput⟩
        · exact hm
        · exact hafter b g hd ((dirtied_concat.mp hb).resolve_right fun ⟨_, _, he⟩ => hput _ _ he)
    · exact absurd hbad.symm hne
  ordered := by
    refine h.ordered.concat fun t1 t2 b bytes he ht hb c hc => ?_
    obtain ⟨g, hg, hmin⟩ := hback b bytes he
    obtain ⟨m, -, hbefore, hafter⟩ := h.steps t1 t2 ht
    have hle := hafter b g hg hb
    rcases hbefore c hc with hw | ⟨⟨g', hlt, hg'⟩, -⟩
    · rwa [ht] at hw
    · have := hmin c g' hg'
      omega

/-- A step ends: what is dirty is from below the generation that begins. -/
theorem Logged.barrier {gen' : Nat} (h : Logged bs disk0 D gen t) (hgen : gen ≤ gen') (hlt : ∀ b g, D b g → g < gen') :
    Logged bs disk0 D gen' (t ++ [.barrier]) where
  upto hb := (hlt _ _ hb).le
  settled b hb := by
    rw [view_concat]
    exact (h.settled b ((dirtied_concat.mp hb).resolve_right nofun)).imp_right fun hw => hw.concat nofun
  steps t1 t2 heq := by
    unfold Step
    rw [view_concat]
    obtain ⟨t3, rfl, ht⟩ | ⟨rfl, -, rfl⟩ := split_concat heq
    · obtain ⟨m, hm, hbefore, hafter⟩ := h.steps t1 t3 ht
      exact ⟨m, hm.trans hgen, fun b hb => (hbefore b hb).imp_left Wrote.append,
        fun b g hd hb => hafter b g hd ((dirtied_concat.mp hb).resolve_right nofun)⟩
    · refine ⟨gen', le_rfl, fun b hb => ?_, fun b g _ hb => ?_⟩
      · rcases h.settled b hb with ⟨g, hg⟩ | hw
        · exact .inr ⟨⟨g, hlt b g hg, hg⟩, rfl⟩
        · exact .inl hw.append
      · obtain ⟨_, _, hb⟩ := hb
        cases hb
  ordered := h.ordered.concat nofun

end

/-! ## The invariant -/

/-- `x` is a slot whose bytes are about to be replaced. -/
structure Inv (bs : Nat) (disk0 : Nat → UInt8) (x : Option (Fin n)) (w : World n) : Prop where
  held : ∀ i, x ≠ some i → (w.cache.slots i).valid = true →
    block bs w.cache.data i = block bs (view bs disk0 w.trace) (w.cache.slots i).lba
  clean : ∀ b, (∀ g, ¬Dirty w.cache.slots b g) → block bs w.disk b = block bs (view bs disk0 w.trace) b
  once : Once w.cache.slots
  valid : ∀ i, (w.cache.slots i).dirty = true → (w.cache.slots i).valid = true
  bound : w.cache.generation < 2 ^ 64
  log : Logged bs disk0 (Dirty w.cache.slots) w.cache.generation w.trace

/-- An event that neither changes a block nor ends a step. -/
def Event.Idle : Event → Prop
  | .refused _ | .fetch _ => True
  | _ => False

namespace Inv

/-- No other slot's bytes are about to be replaced. -/
theorem ne_some {j : Fin n} (hx : x = none ∨ x = some i) (hji : j ≠ i) : x ≠ some j := by
  rcases hx with rfl | rfl
  · nofun
  · exact fun heq => hji (Option.some.inj heq).symm

section

variable (h : Inv bs disk0 x w)

include h

theorem idle (he : e.Idle) (htrace : w'.trace = w.trace ++ [e])
    (hdisk : w'.disk = w.disk) (hcache : w'.cache = w.cache) : Inv bs disk0 x w' := by
  have hshow : e.show bs (view bs disk0 w.trace) = view bs disk0 w.trace := by
    cases e <;> first | rfl | cases he
  have hput : ∀ b within l, e ≠ .put b within l := by
    rintro b within l rfl
    cases he
  have hlog : Logged bs disk0 (Dirty w.cache.slots) w.cache.generation (w.trace ++ [e]) := by
    refine h.log.concat ?_ (fun b => .keeps (hput b) (by rw [hshow]) fun _ => id) (fun b g hd => .inr ⟨hd, hput b⟩) ?_
    · rintro rfl
      cases he
    · rintro b bytes rfl
      cases he
  constructor
  all_goals rw [hcache]
  case held => rw [htrace, view_concat, hshow]; exact h.held
  case clean => rw [htrace, view_concat, hshow, hdisk]; exact h.clean
  case log => rw [htrace]; exact hlog
  exacts [h.once, h.valid, h.bound]

/-- The dirty slots stay. -/
theorem keep (htrace : w'.trace = w.trace) (hdisk : w'.disk = w.disk)
    (hgen : w'.cache.generation = w.cache.generation)
    (hdirty : ∀ i, (w'.cache.slots i).dirty = (w.cache.slots i).dirty)
    (hsame : ∀ i, (w.cache.slots i).dirty = true → (w'.cache.slots i).lba = (w.cache.slots i).lba ∧
      (w'.cache.slots i).valid = true ∧ (w'.cache.slots i).generation = (w.cache.slots i).generation)
    (hheld : ∀ i, x' ≠ some i → (w'.cache.slots i).valid = true →
      block bs w'.cache.data i = block bs (view bs disk0 w.trace) (w'.cache.slots i).lba)
    (honce : Once w'.cache.slots) :
    Inv bs disk0 x' w' := by
  have hD : Dirty w'.cache.slots = Dirty w.cache.slots := by
    funext b g
    refine propext (exists_congr fun i => ?_)
    rw [hdirty]
    refine and_congr_right fun hi => ?_
    rw [(hsame i hi).1, (hsame i hi).2.2]
  constructor
  case valid => exact fun i hi => (hsame i ((hdirty i).symm.trans hi)).2.1
  case clean => rw [hD, htrace, hdisk]; exact h.clean
  case log => rw [hD, htrace, hgen]; exact h.log
  exacts [htrace ▸ hheld, honce, hgen ▸ h.bound]

/-- Every slot stays, its time of use apart, or is clean and is emptied. -/
theorem forget (htrace : w'.trace = w.trace) (hdisk : w'.disk = w.disk)
    (hgen : w'.cache.generation = w.cache.generation)
    (hslot : ∀ i, ((w.cache.slots i).dirty = false ∧ (w'.cache.slots i).dirty = false ∧
        (w'.cache.slots i).valid = false) ∨
      (∃ now, w'.cache.slots i = { w.cache.slots i with usedAt := now }) ∧
        block bs w'.cache.data i = block bs w.cache.data i) :
    Inv bs disk0 x w' := by
  have hstays : ∀ i, (w'.cache.slots i).valid = true → (w.cache.slots i).valid = true ∧
      (w'.cache.slots i).lba = (w.cache.slots i).lba ∧ block bs w'.cache.data i = block bs w.cache.data i := by
    intro i hi
    rcases hslot i with ⟨-, -, hv⟩ | ⟨⟨now, hs⟩, hdata⟩
    · cases hv.symm.trans hi
    · rw [hs] at hi ⊢
      exact ⟨hi, rfl, hdata⟩
  refine h.keep htrace hdisk hgen (fun i => ?_) (fun i hi => ?_) (fun i hi hv => ?_) fun i j hi hj heq => ?_
  · rcases hslot i with ⟨hd, hd', -⟩ | ⟨⟨now, hs⟩, -⟩
    · exact hd'.trans hd.symm
    · rw [hs]
  · rcases hslot i with ⟨hd, -⟩ | ⟨⟨now, hs⟩, -⟩
    · cases hd.symm.trans hi
    · rw [hs]
      exact ⟨rfl, h.valid i hi, rfl⟩
  · obtain ⟨hv, hlba, hdata⟩ := hstays i hv
    rw [hdata, hlba]
    exact h.held i hi hv
  · obtain ⟨hi, hli, -⟩ := hstays i hi
    obtain ⟨hj, hlj, -⟩ := hstays j hj
    exact h.once i j hi hj (hli.symm.trans (heq.trans hlj))

/-- A clean slot is given a block that no other has, with the device's bytes or, if its bytes are
about to be replaced, with any. -/
theorem install {data : Nat → UInt8} (clock : Nat)
    (hi : (w.cache.slots i).dirty = false) (hx : x = none ∨ x = some i)
    (hother : ∀ j, j ≠ i → (w.cache.slots j).valid = true → (w.cache.slots j).lba ≠ s.lba)
    (hs : s.dirty = false) (hdata : ∀ j : Fin n, j ≠ i → block bs data j = block bs w.cache.data j)
    (hx' : x' = some i ∨ x' = none ∧ block bs data i = block bs w.disk s.lba) :
    Inv bs disk0 x' (w.setCache { w.cache with slots := update w.cache.slots i s, data, clock }) := by
  have hne : ∀ {j}, (w.cache.slots j).dirty = true → j ≠ i := by
    rintro j hj rfl
    cases hi.symm.trans hj
  have hself : update w.cache.slots i s i = s := update_self ..
  have hsame : ∀ {j}, j ≠ i → update w.cache.slots i s j = w.cache.slots j := fun hj =>
    update_of_ne hj ..
  refine h.keep rfl rfl rfl (fun j => ?_) (fun j hj => ?_) (fun j hj hv => ?_) fun j k hj hk heq => ?_
  · show (update w.cache.slots i s j).dirty = _
    by_cases hji : j = i
    · rw [hji, hself, hs, hi]
    · rw [hsame hji]
  · show (update w.cache.slots i s j).lba = _ ∧ (update w.cache.slots i s j).valid = true ∧
      (update w.cache.slots i s j).generation = _
    rw [hsame (hne hj)]
    exact ⟨rfl, h.valid j hj, rfl⟩
  · change (update w.cache.slots i s j).valid = true at hv
    show block bs data j = block bs _ (update w.cache.slots i s j).lba
    by_cases hji : j = i
    · subst hji
      rw [hself]
      rcases hx' with hx' | ⟨-, hdisk⟩
      · exact absurd hx' hj
      · rw [hdisk]
        exact h.clean s.lba fun g ⟨k, hk, hkb, _⟩ => hother k (hne hk) (h.valid k hk) hkb
    · rw [hsame hji] at hv ⊢
      rw [hdata j hji]
      exact h.held j (ne_some hx hji) hv
  · change (update w.cache.slots i s j).valid = true at hj
    change (update w.cache.slots i s k).valid = true at hk
    change (update w.cache.slots i s j).lba = (update w.cache.slots i s k).lba at heq
    by_cases hji : j = i <;> by_cases hki : k = i
    · rw [hji, hki]
    · rw [hji, hself, hsame hki] at heq
      rw [hsame hki] at hk
      exact absurd heq.symm (hother k hki hk)
    · rw [hki, hself, hsame hji] at heq
      rw [hsame hji] at hj
      exact absurd heq (hother j hji hj)
    · rw [hsame hji] at hj heq
      rw [hsame hki] at hk heq
      exact h.once j k hj hk heq

end

/-- The device takes a dirty slot of the lowest generation. -/
theorem back (h : Inv bs disk0 none w) (hi : (w.cache.slots i).dirty = true)
    (hmin : ∀ j, (w.cache.slots j).dirty = true → (w.cache.slots i).generation ≤ (w.cache.slots j).generation)
    (htrace : w'.trace = w.trace ++ [.back (w.cache.slots i).lba (block bs w.cache.data i)])
    (hdisk : w'.disk = splice w.disk ((w.cache.slots i).lba * bs) (block bs w.cache.data i))
    (hcache : w'.cache = w.cache.setSlot i { w.cache.slots i with dirty := false }) :
    Inv bs disk0 none w' := by
  have hbytes := h.held i nofun (h.valid i hi)
  have hview : view bs disk0 w'.trace = view bs disk0 w.trace := htrace ▸ view_concat
  have hsame : ({ w.cache.slots i with dirty := false } : Slot).lba = (w.cache.slots i).lba ∧
      ({ w.cache.slots i with dirty := false } : Slot).valid = (w.cache.slots i).valid := ⟨rfl, rfl⟩
  constructor
  all_goals rw [hcache]
  case held =>
    intro j _ hv
    dsimp only [Cache.setSlot] at hv ⊢
    rw [(update_same hsame j).2] at hv
    rw [(update_same hsame j).1, hview]
    exact h.held j nofun hv
  case clean =>
    intro b hb
    rw [hview, hdisk]
    by_cases hbi : b = (w.cache.slots i).lba
    · rw [hbi, block_splice_self length_block, hbytes]
    · rw [← add_zero (_ * bs), block_splice_of_ne hbi (by simp)]
      exact h.clean b fun g hd => hb g (hd.update hbi)
  case log =>
    rw [htrace]
    refine h.log.concat nofun (fun b => ?_) (fun b g hd => ?_) fun b bytes he => ?_
    · by_cases hbi : b = (w.cache.slots i).lba
      · refine .takes (.inl ?_) fun _ _ => rfl
        rw [hbi, hbytes]
        rfl
      · exact .keeps nofun rfl fun _ hd => hd.update hbi
    · obtain ⟨hd, -⟩ | ⟨j, -, hj⟩ := hd.of_update
      · cases hd
      · exact .inr ⟨⟨j, hj⟩, nofun⟩
    · cases he
      exact ⟨_, ⟨i, hi, rfl, rfl⟩, fun c g ⟨j, hj, _, hg⟩ => hg ▸ hmin j hj⟩
  exacts [h.once.update hsame, valid_update h.valid (h.valid i hi) hsame, h.bound]

/-- A slot changes, and is dirty in the current generation: before that it was clean, or dirty in
the same. -/
theorem put (h : Inv bs disk0 x w) {within : Nat} (hx : x = none ∨ x = some i)
    (hv : (w.cache.slots i).valid = true) (hin : within + bytes.length ≤ bs)
    (hwhole : x = some i → within = 0 ∧ bytes.length = bs)
    (hcur : (w.cache.slots i).dirty = true → (w.cache.slots i).generation = w.cache.generation)
    (hs : s.valid = true ∧ s.lba = (w.cache.slots i).lba ∧ s.generation = w.cache.generation)
    (hdirty : s.dirty = true)
    (htrace : w'.trace = w.trace ++ [.put (w.cache.slots i).lba within bytes])
    (hdisk : w'.disk = w.disk) (hslots : w'.cache.slots = update w.cache.slots i s)
    (hdata : w'.cache.data = splice w.cache.data (i * bs + within) bytes)
    (hgen : w'.cache.generation = w.cache.generation) : Inv bs disk0 none w' := by
  have hview : view bs disk0 w'.trace =
      splice (view bs disk0 w.trace) ((w.cache.slots i).lba * bs + within) bytes := htrace ▸ view_concat
  have hsame : s.lba = (w.cache.slots i).lba ∧ s.valid = (w.cache.slots i).valid := ⟨hs.2.1, hs.1.trans hv.symm⟩
  have hkept : ∀ {b}, b ≠ (w.cache.slots i).lba →
      block bs (view bs disk0 w'.trace) b = block bs (view bs disk0 w.trace) b := by
    intro b hb
    rw [hview, block_splice_of_ne hb hin]
  have hnow : Dirty (update w.cache.slots i s) (w.cache.slots i).lba w.cache.generation :=
    ⟨i, by rw [update_self]; exact ⟨hdirty, hs.2⟩⟩
  constructor
  all_goals try rw [hslots]
  case held =>
    intro j _ hjv
    rw [(update_same hsame j).1, hdata]
    rw [(update_same hsame j).2] at hjv
    by_cases hji : j = i
    · subst hji
      rw [hview]
      by_cases hxj : x = some j
      · obtain ⟨rfl, hlen⟩ := hwhole hxj
        rw [add_zero, add_zero, block_splice_self hlen, block_splice_self hlen]
      · exact block_splice_congr (h.held j hxj hv)
    · rw [block_splice_of_ne (fun heq => hji (Fin.ext heq)) hin, hkept fun heq => hji (h.once j i hjv hv heq)]
      exact h.held j (ne_some hx hji) hjv
  case clean =>
    intro b hb
    have hbi : b ≠ (w.cache.slots i).lba := fun heq => hb _ (heq ▸ hnow)
    rw [hkept hbi, hdisk]
    exact h.clean b fun g hd => hb g (hd.update hbi)
  case log =>
    rw [htrace, hgen]
    have hput : ∀ {b}, b ≠ (w.cache.slots i).lba → ∀ k l, Event.put (w.cache.slots i).lba within bytes ≠ .put b k l :=
      fun hb _ _ he => hb (Event.put.inj he).1.symm
    refine h.log.concat nofun (fun b => ?_) (fun b g hd => ?_) nofun
    · by_cases hbi : b = (w.cache.slots i).lba
      · subst hbi
        refine .puts hnow ?_
        rintro g ⟨j, hj, hjb, rfl⟩
        obtain rfl := h.once j i (h.valid j hj) hv hjb
        exact hcur hj
      · exact .keeps (hput hbi) (block_splice_of_ne hbi hin) fun _ hd => hd.update hbi
    · obtain ⟨-, hg⟩ | ⟨j, hji, hj, rfl, hg⟩ := hd.of_update
      · exact .inl (hg.symm.trans hs.2.2)
      · exact .inr ⟨⟨j, hj, rfl, hg⟩, hput fun heq => hji (h.once j i (h.valid j hj) hv heq)⟩
  exacts [h.once.update hsame, valid_update h.valid hv hsame, hgen ▸ h.bound]

/-- The device takes a block when nothing is dirty. -/
theorem through (h : Inv bs disk0 none w) (hlen : bytes.length = bs)
    (hclean : ∀ i, (w.cache.slots i).dirty = false)
    (hx : ∀ i, (w.cache.slots i).valid = true → (w.cache.slots i).lba = lba → x = some i)
    (htrace : w'.trace = w.trace ++ [.through lba bytes])
    (hdisk : w'.disk = splice w.disk (lba * bs) bytes) (hcache : w'.cache = w.cache) :
    Inv bs disk0 x w' := by
  have hview : view bs disk0 w'.trace = splice (view bs disk0 w.trace) (lba * bs) bytes := htrace ▸ view_concat
  have hsame : ∀ {b} (f : Nat → UInt8), b ≠ lba → block bs (splice f (lba * bs) bytes) b = block bs f b := by
    intro b f hb
    exact block_splice_of_ne hb ((zero_add _).trans hlen).le
  have hnone : ∀ {b g}, ¬Dirty w.cache.slots b g := by
    rintro b g ⟨i, hi, -⟩
    rw [hclean] at hi
    cases hi
  constructor
  all_goals rw [hcache]
  case held =>
    intro i hi hv
    rw [hview, hsame _ fun heq => hi (hx i hv heq)]
    exact h.held i nofun hv
  case clean =>
    intro b _
    rw [hview, hdisk]
    by_cases hb : b = lba
    · rw [hb, block_splice_self hlen, block_splice_self hlen]
    · rw [hsame _ hb, hsame _ hb]
      exact h.clean b fun _ => hnone
  case log =>
    rw [htrace]
    refine h.log.concat nofun (fun b => ?_) (fun b g hd => absurd hd hnone) nofun
    by_cases hb : b = lba
    · refine .takes (.inr ?_) fun g hd => absurd hd hnone
      rw [hb, Event.show, block_splice_self hlen]
    · exact .keeps nofun (hsame _ hb) fun _ => id
  exacts [h.once, h.valid, h.bound]

theorem barrier (h : Inv bs disk0 none w) (hgen : w.cache.generation ≤ w'.cache.generation)
    (hbound : w'.cache.generation < 2 ^ 64)
    (hlt : ∀ i, (w.cache.slots i).dirty = true → (w.cache.slots i).generation < w'.cache.generation)
    (htrace : w'.trace = w.trace ++ [.barrier]) (hdisk : w'.disk = w.disk)
    (hslots : w'.cache.slots = w.cache.slots) (hdata : w'.cache.data = w.cache.data) :
    Inv bs disk0 none w' := by
  have hview : view bs disk0 w'.trace = view bs disk0 w.trace := htrace ▸ view_concat
  constructor
  all_goals try rw [hslots]
  case held => rw [hview, hdata]; exact h.held
  case clean => rw [hview, hdisk]; exact h.clean
  case log => rw [htrace]; exact h.log.barrier hgen fun b g ⟨i, hi, _, hg⟩ => hg ▸ hlt i hi
  exacts [h.once, h.valid, hbound]

theorem gen (h : Inv bs disk0 x w) (hi : (w.cache.slots i).dirty = true) :
    (w.cache.slots i).generation ≤ w.cache.generation := h.log.upto ⟨i, hi, rfl, rfl⟩

end Inv

end Kintane.Bcache
