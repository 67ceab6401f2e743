import Mathlib.Data.List.Induction
import Kintane.Ipc.WorldProof

/-!
# Rights are confined

Every entry goes back to one that was granted, made with a channel or brought from elsewhere, and
has at most its rights, however often it was duplicated and sent on the way. What is in a queue
goes back to a grant that could be transferred.
-/

open List

namespace Kintane

open HandleTable Channel
open Kintane.Ring (forall_mem_set)

variable {P G : Entry → Prop} {e : Entry} {required mask : Rights}

/-! ## Grants -/

/-- One of the grants `G` is of the object of `e`, with all the rights `e` has and with `required`. -/
def Covered (G : Entry → Prop) (required : Rights) (e : Entry) : Prop :=
  ∃ g, G g ∧ e.key = g.key ∧ g.rights.contains e.rights = true ∧ g.rights.contains required = true

namespace Covered

theorem contains_trans {a b c : Rights} (hab : a.contains b = true) (hbc : b.contains c = true) :
    a.contains c = true := by
  simp only [Rights.contains, beq_iff_eq] at hab hbc ⊢
  rw [← hbc, ← BitVec.and_assoc, hab]

/-- A grant covers itself. -/
theorem granted (he : G e) : Covered G .empty e :=
  ⟨e, he, rfl, by simp [Rights.contains], by simp [Rights.contains, Rights.empty]⟩

variable (h : Covered G required e)

include h

/-- Taking rights away keeps an entry covered. -/
theorem narrow : Covered G required { e with rights := e.rights.narrow mask } := by
  obtain ⟨g, hg, hk, hr, hq⟩ := h
  exact ⟨g, hg, hk, contains_trans hr (by simp [Rights.contains, Rights.narrow, ← BitVec.and_assoc]), hq⟩

/-- A grant has whatever right its entry has. -/
theorem require {right : Rights} (he : e.rights.contains right = true) : Covered G right e := by
  obtain ⟨g, hg, hk, hr, -⟩ := h
  exact ⟨g, hg, hk, hr, contains_trans hr he⟩

theorem weaken : Covered G .empty e := h.require (by simp [Rights.contains, Rights.empty])

end Covered

/-! ## Tables -/

namespace HandleTable

variable {t t' : HandleTable} {h : Handle} {s : Slot}

/-- A property of all entries of a table. -/
def Each (P : Entry → Prop) (t : HandleTable) : Prop := ∀ s ∈ t.slots, ∀ e, s.entry = some e → P e

variable (ht : Each P t)

include ht

theorem Each.names (hn : t.Names h s e) : P e := ht s (mem_of_getElem? hn.slot) e hn.entry

/-- An inserted entry has to have the property. -/
theorem Each.insert {r : Except HandleError Handle} (he : P e)
    (hi : t.insert e.object e.kind e.rights = (t', r)) : Each P t' := by
  rcases insert_cases t e.object e.kind e.rights with ⟨i, s, -, -, h⟩ | ⟨-, h⟩
  · cases h.symm.trans hi
    exact forall_mem_set ht (fun e' h' => by cases h'; exact he) i
  · cases h.symm.trans hi
    exact ht

theorem Each.vacate (i : Nat) (s : Slot) : Each P (t.vacate i s) :=
  forall_mem_set ht (fun e he => by rw [advance_entry] at he; cases he) i

/-- Sending only empties slots. -/
theorem Each.takeAll (index : Nat) (handles : List Handle) : Each P (t.takeAll index handles).1 := by
  fun_induction HandleTable.takeAll t index handles with
  | case1 => exact ht
  | case2 _ _ _ _ _ ih => exact ih ht
  | case3 _ _ _ _ _ _ _ ih => exact ih ht
  | case4 _ _ _ _ _ _ _ _ _ _ heq ih =>
    rw [heq] at ih
    exact ih (ht.vacate _ _)

/-- Receiving fills slots with what the message had. -/
theorem Each.installAll {es : List Entry} (room : Nat) (hes : ∀ e ∈ es, P e) :
    Each P (installAll t room es).1 := by
  fun_induction Channel.installAll t room es with
  | case1 => exact ht
  | case2 => exact ht
  | case3 t _ e es t' error hi => exact ht.insert (hes e mem_cons_self) hi
  | case4 t room e es t' g hi _ _ _ heq ih =>
    rw [heq] at ih
    exact ih (ht.insert (hes e mem_cons_self) hi) fun e he => hes e (mem_cons_of_mem _ he)

end HandleTable

/-! ## Channels -/

namespace Channel

variable {c : Channel} {t : HandleTable}

/-- A property of all entries in the queues of a channel. -/
def Each (P : Entry → Prop) (c : Channel) : Prop :=
  ∀ s, ∀ p ∈ (c.ends s).inbox.packets, ∀ e ∈ p.entries, P e

theorem Each.setEnd (hc : Each P c) (side : Side) {e : End}
    (he : ∀ p ∈ e.inbox.packets, ∀ e ∈ p.entries, P e) : Each P (c.setEnd side e) := by
  intro s
  by_cases hs : s = side
  · rw [hs, ends_setEnd_self]
    exact he
  · rw [ends_setEnd_ne c hs]
    exact hc s

/-- What comes out of a queue had the property there. -/
theorem Each.pop (hc : Each P c) (fits : ∃ d, Fits d c) {side : Side} {m : Message}
    (hm : (c.ends side).inbox.front = some m) : (∀ e ∈ m.entries, P e) ∧
      Each P (c.setEnd side { c.ends side with inbox := (c.ends side).inbox.discardFront }) := by
  have hall := hc side
  rw [((fits.choose_spec side).pop hm).1, forall_mem_cons] at hall
  exact ⟨hall.1, hc.setEnd side hall.2⟩

variable (hc : Each (Covered G .transfer) c) (ht : t.Each (Covered G .empty)) (endpoint : Handle)

include hc ht

/-- What `send` puts in the queue could be transferred, and what stays in the table was there. -/
theorem Each.send (fits : ∃ d, Fits d c) (bytes : List UInt8) (handles : List Transfer) :
    let r := (c.send t endpoint bytes handles).1
    r.1.Each (Covered G .transfer) ∧ r.2.Each (Covered G .empty) := by
  rcases send_cases c t endpoint bytes handles with
    ⟨e, he⟩ | ⟨side, slot, -, hb, hh, -, -, hvac, hm, he⟩ <;> rw [he]
  · exact ⟨hc, ht⟩
  obtain ⟨d, fits⟩ := fits
  have hpush := ((fits side.peer).push hvac hb ((History.offered_length t handles).trans hh)).2
  refine ⟨hc.setEnd _ (hpush ▸ forall_mem_append.mpr ⟨hc _, ?_⟩), ht.takeAll _ _⟩
  -- what is offered had TRANSFER before it was narrowed
  simp only [mem_singleton, forall_eq, offered, mem_filterMap]
  intro e he
  obtain ⟨x, hx, hn⟩ := he
  obtain ⟨s, e', hs, hr⟩ := hm.names x.handle (mem_map_of_mem hx)
  rw [hs.named] at hn
  cases hn
  exact ((ht.names hs).require hr).narrow

/-- What `receive` puts in the table was in the queue. -/
theorem Each.receive (fits : ∃ d, Fits d c) (bytes : List UInt8) (handles : List Handle) :
    let r := (c.receive t endpoint bytes handles).1
    r.1.Each (Covered G .transfer) ∧ r.2.1.Each (Covered G .empty) := by
  rcases receive_cases c t endpoint bytes handles with
    ⟨e, he⟩ | ⟨side, m, t', installed, -, -, hm, -, -, hins, he⟩ <;> rw [he]
  · exact ⟨hc, ht⟩
  obtain ⟨hes, hrest⟩ := hc.pop fits hm
  have htable := ht.installAll handles.length fun e he => (hes e he).weaken
  rw [hins] at htable
  exact ⟨hrest, htable⟩

/-- A duplicate has at most the rights of the entry it was made from. -/
theorem Each.duplicate (mask : Rights) :
    let r := (c.duplicate t endpoint mask).1
    r.1.Each (Covered G .transfer) ∧ r.2.Each (Covered G .empty) := by
  rcases duplicate_cases c t endpoint mask with
    ⟨e, he⟩ | ⟨side, t', dup, -, -, -, hd, he⟩ <;> rw [he]
  · exact ⟨hc, ht⟩
  refine ⟨hc.setEnd side (hc side), ?_⟩
  unfold HandleTable.duplicate at hd
  split at hd
  · cases hd
  split at hd
  · cases hd
  rename_i e hg _
  obtain ⟨s, hn⟩ := get_eq_ok.mp hg
  exact ht.insert (ht.names hn).narrow hd

end Channel

/-! ## The world -/

/-- What an operation that is not refused puts into callers' hands that was nowhere before. -/
def IpcOp.granted : IpcOp → List Entry
  | .newChannel _ a b _ _ _ rights => [⟨a, .channel, rights⟩, ⟨b, .channel, rights⟩]
  | .bring entry => [entry]
  | _ => []

namespace IpcWorld

/-- Every entry goes back to one of the grants `G`, and what is in a queue to one that could be sent. -/
structure Confined (G : Entry → Prop) (w : IpcWorld) : Prop where
  tables : ∀ t ∈ w.tables, t.Each (Covered G .empty)
  hands : ∀ e ∈ w.hands, Covered G .empty e
  queues : ∀ i c, w.set.channel i = some c → c.Each (Covered G .transfer)

namespace Confined

variable {w : IpcWorld} {c : Channel} {i j : Nat} (h : Confined G w)

include h

theorem put (hc : c.Each (Covered G .transfer)) :
    ∀ i u, (w.set.put j c).channel i = some u → u.Each (Covered G .transfer) :=
  Accounts.each_put hc fun i u _ => h.queues i u

theorem both {t : HandleTable} (hr : c.Each (Covered G .transfer) ∧ t.Each (Covered G .empty)) :
    Confined G { w with set := w.set.put j c, tables := w.tables.set i t } :=
  ⟨forall_mem_set h.tables hr.2 i, h.hands, h.put hr.1⟩

theorem eraseIdx {p : Nat} : ∀ e ∈ w.hands.eraseIdx p, Covered G .empty e :=
  fun e he => h.hands e (mem_of_mem_eraseIdx he)

/-- One operation keeps every entry covered, if its own grants are among `G`. -/
theorem step (hw : Inv w) {op : IpcOp} (hop : ∀ e ∈ op.granted, G e) : Confined G (w.step op) := by
  replace hop := fun e he => Covered.granted (hop e he)
  have table {i t} (hi : w.tables[i]? = some t) := h.tables t (mem_of_getElem? hi)
  cases op <;> simp only [IpcWorld.step]
  case newTable n =>
    refine ⟨forall_mem_append.mpr ⟨h.tables, ?_⟩, h.hands, h.queues⟩
    simp [HandleTable.new, HandleTable.Each]
  case newChannel =>
    split
    · refine ⟨h.tables, forall_mem_append.mpr ⟨hop, h.hands⟩, h.put fun s => ?_⟩
      simp [Channel.new, Inbox.new, Inbox.packets, Inbox.messages]
    · exact h
  case bring =>
    split
    · exact ⟨h.tables, forall_mem_append.mpr ⟨hop, h.hands⟩, h.queues⟩
    · exact h
  case discard =>
    split
    · exact h
    split
    · exact ⟨h.tables, h.eraseIdx, h.queues⟩
    · exact h
  case install =>
    split
    case h_2 => exact h
    rename_i t e hi hp
    split <;> have hins := (table hi).insert (h.hands e (mem_of_getElem? hp)) ‹_›
    · exact ⟨forall_mem_set h.tables hins _, h.eraseIdx, h.queues⟩
    · exact ⟨forall_mem_set h.tables hins _, h.hands, h.queues⟩
  case send =>
    split
    case h_2 => exact h
    rename_i c t hj hi
    exact h.both ((h.queues _ c hj).send (table hi) _ (hw.fits _ c hj) _ _)
  case receive =>
    split
    case h_2 => exact h
    rename_i c t hj hi
    exact h.both ((h.queues _ c hj).receive (table hi) _ (hw.fits _ c hj) _ _)
  case duplicate =>
    split
    case h_2 => exact h
    rename_i c t hj hi
    exact h.both ((h.queues _ c hj).duplicate (table hi) _ _)
  case close endpoint =>
    split
    case h_2 => exact h
    rename_i c t hj hi
    unfold closeHandle
    cases c.endpoint t endpoint .empty with
    | error e => simpa only [Tally.set_same hi] using h
    | ok side =>
      rcases close_cases t endpoint with ⟨s, e, hn, he⟩ | ⟨-, he⟩ <;> simp only [he]
      · exact ⟨forall_mem_set h.tables ((table hi).vacate _ s) _,
          forall_mem_cons.mpr ⟨(table hi).names hn, h.hands⟩, h.queues⟩
      · simpa only [Tally.set_same hi] using h
  case release =>
    split
    case h_2 => exact h
    rename_i c e hj hi
    have hc := h.queues _ c hj
    rcases releaseKeepingInbox_cases c e with ⟨err, he⟩ | ⟨side, hs, -, he⟩ <;> simp only [he]
    · exact h
    · simp only [hs]
      exact ⟨h.tables, h.eraseIdx, h.put (hc.setEnd side (hc side))⟩
  case drain =>
    split
    · exact h
    rename_i j side _
    split
    · exact h
    rename_i c hj
    obtain ⟨d, fits⟩ := hw.fits _ c hj
    have hc := h.queues _ c hj
    rcases takeMessage_cases (fits side) with ⟨-, he⟩ | ⟨m, hm, he⟩ <;> simp only [he]
    · exact ⟨h.tables, h.hands, h.put hc⟩
    · obtain ⟨hes, hrest⟩ := hc.pop ⟨d, fits⟩ hm
      rw [((fits side).pop hm).2.2.2.1]
      exact ⟨h.tables, forall_mem_append.mpr ⟨fun e he => (hes e he).weaken, h.hands⟩, h.put hrest⟩

end Confined

/-- An operation of the run granted `e`. One that was refused left the world as it was, and granted nothing. -/
def Granted (cap : Nat) (ops : List IpcOp) (e : Entry) : Prop :=
  ∃ before op, before ++ [op] <+: ops ∧ run cap (before ++ [op]) ≠ run cap before ∧ e ∈ op.granted

/-- **Rights are confined.** In every run, no entry in a table, in a caller's hands or in a queue
has a right over an object that no operation granted with it. -/
theorem run_confined (cap : Nat) (ops : List IpcOp) : Confined (Granted cap ops) (run cap ops) := by
  suffices h : ∀ p, p <+: ops → Confined (Granted cap ops) (run cap p) from h ops prefix_rfl
  intro p
  induction p using reverseRecOn with
  | nil =>
    refine fun _ => ⟨by simp [run, init], by simp [run, init], fun i c hc => ?_⟩
    cases eq_of_mem_replicate (mem_of_getElem? (ChannelSet.channel_eq_some.mp hc))
  | append_singleton p op ih =>
    intro hle
    have ih := ih ((prefix_append p [op]).trans hle)
    by_cases hne : run cap (p ++ [op]) = run cap p
    · rwa [hne]
    · have hstep : run cap (p ++ [op]) = (run cap p).step op := by simp [run]
      rw [hstep]
      exact ih.step ((Inv.init cap).foldl p) fun e he => ⟨p, op, hle, hne, he⟩

end IpcWorld

end Kintane
