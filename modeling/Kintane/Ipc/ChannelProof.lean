import Kintane.Ipc.Channel
import Kintane.Ipc.InboxProof
import Kintane.Kobject.HandleMoves

/-!
# A channel is a bounded queue each way

What `send` and `receive` do, and what every run of them does: on each side the messages
received are the first of those the other side sent, with the bytes that were sent and the
handles' rights as the sender held them, narrowed by the masks. An operation that fails changes
nothing.
-/

open List Function

namespace Kintane

open HandleTable

namespace Side

theorem peer_peer (s : Side) : s.peer.peer = s := by cases s <;> rfl

theorem peer_ne (s : Side) : s.peer ≠ s := by cases s <;> decide

end Side

/-- An endpoint with one reference less, closed with the last one. -/
def End.release (e : End) : End :=
  { e with refs := e.refs - 1, isOpen := if e.refs - 1 = 0 then false else e.isOpen }

namespace Channel

variable {c : Channel} {table : HandleTable} {s s' side : Side} {e : End} {es : List Entry} {d : Nat}

/-- The entries a sender offers: what the handles name, narrowed. -/
def offered (table : HandleTable) (handles : List Transfer) : List Entry :=
  handles.filterMap fun t =>
    (table.named t.handle).map fun e => { e with rights := e.rights.narrow t.mask }

/-- What the sink stages is what was offered. -/
theorem narrowed_takeAll {handles : List Transfer} (hm : table.Movable (handles.map (·.handle))) :
    narrowed handles (table.takeAll 0 (handles.map (·.handle))).2 = offered table handles := by
  obtain ⟨hlen, hget⟩ := takeAll_sunk hm 0
  have hall : offered table handles = handles.map fun t =>
      ((table.named t.handle).map fun e : Entry =>
        { e with rights := e.rights.narrow t.mask }).getD ⟨0, .event, .empty⟩ := by
    rw [offered, ← filterMap_eq_map]
    refine filterMap_congr fun t ht => ?_
    obtain ⟨s, e, hn, -⟩ := hm.names t.handle (mem_map_of_mem ht)
    simp [hn.named]
  rw [hall]
  refine ext_getElem? fun i => ?_
  rw [narrowed, getElem?_map, getElem?_map]
  cases hp : (table.takeAll 0 (handles.map (·.handle))).2[i]? with
  | none =>
    have hi : handles[i]? = none := by
      rw [getElem?_eq_none_iff] at hp ⊢
      rwa [hlen, length_map] at hp
    rw [hi]
    rfl
  | some p =>
    obtain ⟨hidx, h, hh, hnamed⟩ := hget i p hp
    rw [getElem?_map] at hh
    cases ht : handles[i]? with
    | none => rw [ht] at hh; cases hh
    | some t =>
      rw [ht] at hh
      cases hh
      simp [hidx, ht, hnamed]

/-! ## One operation -/

def Fits (d : Nat) (c : Channel) : Prop :=
  ∀ s, (c.ends s).inbox.Ok d c.maxBytes c.maxHandles

theorem Fits.new (hd : 0 < d) (a b maxBytes maxHandles : Nat) (rights : Rights) :
    Fits d (new a b d maxBytes maxHandles rights).1 := fun _ => Inbox.Ok.new hd

theorem ends_setEnd_self (c : Channel) (s : Side) (e : End) : (c.setEnd s e).ends s = e :=
  update_self ..

theorem ends_setEnd_ne (c : Channel) (h : s' ≠ s) (e : End) : (c.setEnd s e).ends s' = c.ends s' := update_of_ne h ..

theorem Fits.setEnd (hc : Fits d c)
    (he : e.inbox.Ok d c.maxBytes c.maxHandles) : Fits d (c.setEnd s e) := by
  intro s'
  by_cases hs : s' = s
  · subst hs
    rw [ends_setEnd_self]
    exact he
  · rw [ends_setEnd_ne c hs]
    exact hc s'

/-- A send changes nothing, or moves the handles into a message at the end of the peer's
inbox, which had room. -/
theorem send_cases (c : Channel) (table : HandleTable) (endpoint : Handle) (bytes : List UInt8)
    (handles : List Transfer) :
    (∃ e, c.send table endpoint bytes handles = ((c, table), .error e)) ∨
      ∃ side slot, c.endpoint table endpoint .write = .ok side ∧
        bytes.length ≤ c.maxBytes ∧ handles.length ≤ c.maxHandles ∧
        (c.ends side).isOpen = true ∧ (c.ends side.peer).isOpen = true ∧
        (c.ends side.peer).inbox.vacant = some slot ∧
        table.Movable (handles.map (·.handle)) ∧
        c.send table endpoint bytes handles =
          ((c.setEnd side.peer { c.ends side.peer with
              inbox := ((c.ends side.peer).inbox.stage slot (offered table handles)).commit slot
                bytes },
            (table.takeAll 0 (handles.map (·.handle))).1), .ok ()) := by
  unfold send
  cases he : c.endpoint table endpoint .write with
  | error e => exact .inl ⟨e, rfl⟩
  | ok side =>
    simp only
    split
    · exact .inl ⟨_, rfl⟩
    rename_i hlarge
    cases hcheck : table.checkTransferOutMany (handles.map (·.handle)) with
    | error e => exact .inl ⟨_, rfl⟩
    | ok u =>
      cases c.checkCycles table 0 handles with
      | error e => exact .inl ⟨_, rfl⟩
      | ok u' =>
        simp only [sendLocked]
        split
        · exact .inl ⟨_, rfl⟩
        rename_i hmine
        split
        · exact .inl ⟨_, rfl⟩
        rename_i hpeer
        cases hvac : (c.ends side.peer).inbox.vacant with
        | none => exact .inl ⟨_, rfl⟩
        | some slot =>
          have hm := checkTransferOutMany_ok.mp hcheck
          rw [not_or, not_lt, not_lt] at hlarge
          refine .inr ⟨side, slot, rfl, hlarge.1, hlarge.2, by simpa using hmine,
            by simpa using hpeer, hvac, hm, ?_⟩
          simp only [transferOutMany, hcheck, narrowed_takeAll hm]

/-- Entries for which there is room are all installed. -/
theorem installAll_fits (room : Nat)
    (hfree : es.length ≤ table.freeSlots) : (installAll table room es).2.2 = none := by
  induction es generalizing table room with
  | nil => cases room <;> rfl
  | cons e es ih =>
    cases room with
    | zero => rfl
    | succ room =>
      obtain ⟨i, s, -, -, hins, hcount⟩ :=
        insert_free ((Nat.succ_pos _).trans_le hfree) e
      simp only [installAll, hins]
      exact ih room (by simp only [length_cons] at hfree; omega)

/-- In a valid table they are, under handles that name them. -/
theorem installAll_ok (hv : table.Valid) (room : Nat)
    (hroom : es.length ≤ room) (hfree : es.length ≤ table.freeSlots) :
    ∃ table' hs, installAll table room es = (table', hs, none) ∧
      hs.map table'.named = es.map some ∧ table'.Valid ∧
      ∀ {g s e}, table.Names g s e → table'.Names g s e := by
  induction es generalizing table room with
  | nil => exact ⟨table, [], by cases room <;> rfl, rfl, hv, fun hn => hn⟩
  | cons e es ih =>
    obtain ⟨room, rfl⟩ := Nat.exists_eq_add_of_lt hroom
    obtain ⟨t1, h, hins, hadd⟩ :=
      insert_added hv ((Nat.succ_pos _).trans_le hfree) e
    obtain ⟨t2, hs, hall, hnamed, hv2, hframe⟩ := ih hadd.valid (es.length + room)
      (Nat.le_add_right _ _) (by have := hadd.free; simp only [length_cons] at hfree; omega)
    obtain ⟨s, hn⟩ := hadd.names
    refine ⟨t2, h :: hs, ?_, ?_, hv2, fun hn => hframe (hadd.frame hn)⟩
    · simp only [installAll, hins, hall]
    · rw [map_cons, map_cons, hnamed, (hframe hn).named]

/-- A receive changes nothing, or installs the entries of the front message and takes it out of
the inbox. -/
theorem receive_cases (c : Channel) (table : HandleTable) (endpoint : Handle)
    (bytes : List UInt8) (handles : List Handle) :
    (∃ e, c.receive table endpoint bytes handles = ((c, table, bytes, handles), .error e)) ∨
      ∃ side msg table' installed, c.endpoint table endpoint .read = .ok side ∧
        (c.ends side).isOpen = true ∧ (c.ends side).inbox.front = some msg ∧
        msg.entries.length ≤ handles.length ∧ msg.entries.length ≤ table.freeSlots ∧
        installAll table handles.length msg.entries = (table', installed, none) ∧
        c.receive table endpoint bytes handles =
          ((c.setEnd side { c.ends side with inbox := (c.ends side).inbox.discardFront }, table',
              msg.data ++ bytes.drop msg.data.length, installed ++ handles.drop installed.length),
            .ok ⟨msg.data.length, msg.entries.length⟩) := by
  unfold receive
  cases he : c.endpoint table endpoint .read with
  | error e => exact .inl ⟨e, rfl⟩
  | ok side =>
    simp only [receiveLocked]
    split
    · exact .inl ⟨_, rfl⟩
    rename_i hmine
    cases hfront : (c.ends side).inbox.front with
    | none => exact .inl ⟨_, rfl⟩
    | some msg =>
      simp only [Message.handleCount]
      by_cases hsmall : bytes.length < msg.data.length ∨ handles.length < msg.entries.length
      · exact .inl ⟨_, if_pos hsmall⟩
      by_cases hfree : table.freeSlots < msg.entries.length
      · exact .inl ⟨_, (if_neg hsmall).trans (if_pos hfree)⟩
      -- The check of the free slots keeps the inserts from failing part-way.
      have hfits := installAll_fits handles.length (Nat.le_of_not_lt hfree)
      rcases hall : installAll table handles.length msg.entries with ⟨table', installed, failure⟩
      rw [hall] at hfits
      obtain rfl : failure = none := hfits
      refine .inr ⟨side, msg, table', installed, rfl, by simpa using hmine, hfront,
        Nat.le_of_not_lt (not_or.mp hsmall).2, Nat.le_of_not_lt hfree, hall,
        (if_neg hsmall).trans ((if_neg hfree).trans ?_)⟩
      simp only

/-- A duplicate changes nothing, or counts the new handle. -/
theorem duplicate_cases (c : Channel) (table : HandleTable) (endpoint : Handle) (mask : Rights) :
    (∃ e, c.duplicate table endpoint mask = ((c, table), .error e)) ∨
      ∃ side table' dup, c.endpoint table endpoint .duplicate = .ok side ∧
        (c.ends side).isOpen = true ∧ (c.ends side).refs + 1 ≤ u32Max ∧
        table.duplicate endpoint mask = (table', .ok dup) ∧
        c.duplicate table endpoint mask =
          ((c.setEnd side { c.ends side with refs := (c.ends side).refs + 1 }, table'), .ok dup) := by
  unfold duplicate
  cases he : c.endpoint table endpoint .duplicate with
  | error e => exact .inl ⟨e, rfl⟩
  | ok side =>
    simp only
    split
    · exact .inl ⟨_, rfl⟩
    rename_i hopen
    cases hadd : checkedAdd u32Max (c.ends side).refs 1 with
    | none => exact .inl ⟨_, rfl⟩
    | some refs =>
      obtain ⟨hle, rfl⟩ := checkedAdd_eq_some.mp hadd
      rcases hd : table.duplicate endpoint mask with ⟨table', e | dup⟩
      · obtain rfl := duplicate_error hd
        exact .inl ⟨.endpoint e, rfl⟩
      · exact .inr ⟨side, table', dup, rfl, by simpa using hopen, hle, rfl, rfl⟩

/-- A release changes nothing, or counts one reference out and closes the endpoint with the
last one. -/
theorem releaseKeepingInbox_cases (c : Channel) (entry : Entry) :
    (∃ e, c.releaseKeepingInbox entry = (c, .error e)) ∨
      ∃ side, c.sideOfEntry entry = .ok side ∧ 1 ≤ (c.ends side).refs ∧
        c.releaseKeepingInbox entry =
          (c.setEnd side (c.ends side).release, .ok ((c.ends side).refs - 1 = 0)) := by
  unfold releaseKeepingInbox
  cases hs : c.sideOfEntry entry with
  | error e => exact .inl ⟨e, rfl⟩
  | ok side =>
    by_cases hle : 1 ≤ (c.ends side).refs
    · refine .inr ⟨side, rfl, hle, ?_⟩
      simp only [checkedSub_of_le hle, End.release]
    · refine .inl ⟨.notHeld, ?_⟩
      simp only [checkedSub, if_neg hle]

/-- An empty inbox stays as it is, and the front message of another is taken out. -/
theorem takeMessage_cases (hq : (c.ends side).inbox.Ok d c.maxBytes c.maxHandles) :
    ((c.ends side).inbox.packets = [] ∧ c.takeMessage side = (c, none)) ∨
      ∃ msg, (c.ends side).inbox.front = some msg ∧
        c.takeMessage side =
          (c.setEnd side { c.ends side with inbox := (c.ends side).inbox.discardFront },
            some msg.handles) := by
  cases hfront : (c.ends side).inbox.front with
  | none =>
    obtain ⟨hp, ht⟩ := hq.front_none hfront
    refine .inl ⟨hp, ?_⟩
    simp only [takeMessage, ht, setEnd, update_eq_self]
  | some msg =>
    obtain ⟨-, -, ht, -⟩ := hq.pop hfront
    refine .inr ⟨msg, rfl, ?_⟩
    rw [← ht]
    rfl

/-! ## Runs -/

/-- What is done to a channel. A table is any that a program can have. -/
inductive Op where
  | send (table : { t : HandleTable // t.Valid }) (endpoint : Handle) (bytes : List UInt8)
      (handles : List Transfer)
  | receive (table : { t : HandleTable // t.Valid }) (endpoint : Handle) (bytes : List UInt8)
      (handles : List Handle)
  | duplicate (table : { t : HandleTable // t.Valid }) (endpoint : Handle) (mask : Rights)
  | release (entry : Entry)
  /-- One message of a closed endpoint is taken apart. -/
  | takeMessage (side : Side)

/-- A channel and what passed through it. -/
structure History where
  channel : Channel
  sent : Side → List Packet
  received : Side → List Packet
  /-- Taken apart on a side after it was closed. -/
  dropped : Side → List Packet

namespace History

/-- A packet at the end of a side's list. -/
def log (l : Side → List Packet) (side : Side) (p : Packet) : Side → List Packet :=
  update l side (l side ++ [p])

/-- What the sender of a message gave, and what the receiver of one got: the bytes at the front
of its buffer, and the entries that the handles at the front of the other now name. -/
def step (w : History) : Op → History
  | .send table endpoint bytes handles =>
    match w.channel.endpoint table endpoint .write, w.channel.send table endpoint bytes handles with
    | .ok side, ((channel, _), .ok ()) =>
      { w with channel, sent := log w.sent side ⟨bytes, offered table handles⟩ }
    | _, ((channel, _), _) => { w with channel }
  | .receive table endpoint bytes handles =>
    match w.channel.endpoint table endpoint .read,
      w.channel.receive table endpoint bytes handles with
    | .ok side, ((channel, table', bytes', handles'), .ok got) =>
      { w with
        channel
        received := log w.received side
          ⟨bytes'.take got.bytes, (handles'.take got.handles).filterMap table'.named⟩ }
    | _, ((channel, _), _) => { w with channel }
  | .duplicate table endpoint mask =>
    { w with channel := (w.channel.duplicate table endpoint mask).1.1 }
  | .release entry => { w with channel := (w.channel.releaseKeepingInbox entry).1 }
  | .takeMessage side =>
    if (w.channel.ends side).isOpen then w
    else
      { w with
        channel := (w.channel.takeMessage side).1
        dropped := update w.dropped side
          (w.dropped side ++ ((w.channel.ends side).inbox.packets.take 1)) }

def run (w : History) (ops : List Op) : History := ops.foldl step w

/-- A channel of `d` messages each way that nothing passed through. -/
def new (a b d maxBytes maxHandles : Nat) (rights : Rights) : History :=
  ⟨(Channel.new a b d maxBytes maxHandles rights).1, fun _ => [], fun _ => [], fun _ => []⟩

/-- What was sent was received, dropped or is queued, in order; an open side drops nothing. -/
structure Inv (d : Nat) (w : History) : Prop where
  fits : Fits d w.channel
  exact : ∀ s, w.sent s.peer = w.received s ++ w.dropped s ++ (w.channel.ends s).inbox.packets
  kept : ∀ s, (w.channel.ends s).isOpen = true → w.dropped s = []

variable {d : Nat} {w : History}

theorem Inv.new (hd : 0 < d) (a b maxBytes maxHandles : Nat) (rights : Rights) :
    Inv d (new a b d maxBytes maxHandles rights) where
  fits := Fits.new hd a b maxBytes maxHandles rights
  exact _ := rfl
  kept _ _ := rfl

theorem log_self (l : Side → List Packet) (s : Side) (p : Packet) : log l s p s = l s ++ [p] :=
  update_self ..

theorem log_ne (l : Side → List Packet) (h : s' ≠ s) (p : Packet) : log l s p s' = l s' := update_of_ne h ..

/-- One end changes, and what passed through it. -/
theorem Inv.change (h : Inv d w) {w' : History}
    (channel : w'.channel = w.channel.setEnd side e) (fits : e.inbox.Ok d w.channel.maxBytes w.channel.maxHandles)
    (exact : w'.sent side.peer = w'.received side ++ w'.dropped side ++ e.inbox.packets)
    (kept : e.isOpen = true → w'.dropped side = [])
    (other : ∀ s, s ≠ side → w'.sent s.peer = w.sent s.peer ∧ w'.received s = w.received s ∧ w'.dropped s = w.dropped s) :
    Inv d w' := by
  refine ⟨channel ▸ h.fits.setEnd fits, fun s => ?_, fun s => ?_⟩ <;> rw [channel]
  · by_cases hs : s = side
    · subst hs
      rwa [ends_setEnd_self]
    · obtain ⟨hsent, hreceived, hdropped⟩ := other s hs
      rw [ends_setEnd_ne _ hs, hsent, hreceived, hdropped]
      exact h.exact s
  · by_cases hs : s = side
    · subst hs
      rwa [ends_setEnd_self]
    · rw [ends_setEnd_ne _ hs, (other s hs).2.2]
      exact h.kept s

/-- An operation on one end that keeps its inbox, and does not open it. -/
theorem Inv.setEnd (h : Inv d w) (inbox : e.inbox = (w.channel.ends side).inbox)
    (isOpen : e.isOpen = true → (w.channel.ends side).isOpen = true) :
    Inv d { w with channel := w.channel.setEnd side e } :=
  h.change rfl (inbox ▸ h.fits side) (inbox ▸ h.exact side) (fun ho => h.kept side (isOpen ho)) fun _ _ => ⟨rfl, rfl, rfl⟩

theorem offered_length (table : HandleTable) (handles : List Transfer) :
    (offered table handles).length ≤ handles.length := length_filterMap_le _ _

theorem Inv.send (h : Inv d w) (table : { t : HandleTable // t.Valid }) (endpoint : Handle)
    (bytes : List UInt8) (handles : List Transfer) :
    Inv d (w.step (.send table endpoint bytes handles)) := by
  unfold step
  rcases send_cases w.channel table endpoint bytes handles with
    ⟨e, he⟩ | ⟨side, slot, hend, hb, hh, hmine, hpeer, hvac, hm, he⟩
  · simp only [he]
    cases w.channel.endpoint table endpoint .write <;> exact h
  simp only [he, hend]
  obtain ⟨hok, hpackets⟩ := (h.fits side.peer).push hvac hb ((offered_length table handles).trans hh)
  refine h.change rfl hok ?_ (fun _ => h.kept _ hpeer) fun s hs => ⟨log_ne _ (fun he => hs ?_) _, rfl, rfl⟩
  · simp only [hpackets, Side.peer_peer, log_self]
    rw [← append_assoc, ← h.exact side.peer, Side.peer_peer]
  · rw [← he, Side.peer_peer]

/-- The receiver finds the packet that was at the front: its bytes, and its entries under the
handles. -/
theorem received_packet {msg : Message} {table' : HandleTable} {installed handles : List Handle}
    {bytes : List UInt8} (hnamed : installed.map table'.named = msg.entries.map some) :
    (⟨(msg.data ++ bytes).take msg.data.length,
      ((installed ++ handles).take msg.entries.length).filterMap table'.named⟩ : Packet) =
      msg.packet := by
  have hlen : installed.length = msg.entries.length := by
    have := congrArg List.length hnamed
    rwa [length_map, length_map] at this
  have hentries : installed.filterMap table'.named = msg.entries := by
    have := congrArg (List.filterMap fun o => o) hnamed
    rw [filterMap_map, filterMap_map] at this
    exact this.trans filterMap_some
  rw [take_left, ← hlen, take_left, hentries]
  rfl

section

variable (h : Inv d w)

include h

theorem Inv.receive (table : { t : HandleTable // t.Valid }) (endpoint : Handle)
    (bytes : List UInt8) (handles : List Handle) :
    Inv d (w.step (.receive table endpoint bytes handles)) := by
  unfold step
  rcases receive_cases w.channel table endpoint bytes handles with
    ⟨e, he⟩ | ⟨side, msg, table', installed, hend, hopen, hfront, hroom, hfree, hall, he⟩
  · simp only [he]
    cases w.channel.endpoint table endpoint .read <;> exact h
  obtain ⟨t', hs, hall', hnamed, -⟩ := installAll_ok table.2 _ hroom hfree
  cases hall'.symm.trans hall
  simp only [he, hend, received_packet hnamed]
  obtain ⟨hpackets, hok, -⟩ := (h.fits side).pop hfront
  refine h.change rfl hok ?_ (fun _ => h.kept side hopen) fun s hs => ⟨rfl, log_ne _ hs _, rfl⟩
  simp only [log_self]
  rw [h.exact side, h.kept side hopen, hpackets]
  simp

theorem Inv.duplicate (table : { t : HandleTable // t.Valid }) (endpoint : Handle)
    (mask : Rights) : Inv d (w.step (.duplicate table endpoint mask)) := by
  unfold step
  rcases duplicate_cases w.channel table endpoint mask with
    ⟨e, he⟩ | ⟨side, table', dup, -, -, -, -, he⟩
  · simp only [he]
    exact h
  · simp only [he]
    exact h.setEnd rfl fun ho => ho

theorem Inv.release (entry : Entry) : Inv d (w.step (.release entry)) := by
  unfold step
  rcases releaseKeepingInbox_cases w.channel entry with ⟨e, he⟩ | ⟨side, -, -, he⟩
  · simp only [he]
    exact h
  simp only [he]
  refine h.setEnd rfl fun ho => ?_
  unfold End.release at ho
  split at ho
  · cases ho
  · exact ho

theorem Inv.takeMessage (side : Side) : Inv d (w.step (.takeMessage side)) := by
  unfold step
  simp only
  split
  · exact h
  rename_i hclosed
  rcases takeMessage_cases (h.fits side) with ⟨hpackets, he⟩ | ⟨msg, hfront, he⟩
  · simp only [he, hpackets, take_nil, append_nil, update_eq_self]
    exact h
  obtain ⟨hpackets, hok, -⟩ := (h.fits side).pop hfront
  simp only [he]
  refine h.change rfl hok ?_ (fun ho => absurd ho hclosed) fun s hs => ⟨rfl, rfl, update_of_ne hs ..⟩
  rw [h.exact side, hpackets]
  simp

theorem Inv.step (op : Op) : Inv d (w.step op) := by
  cases op with
  | send table endpoint bytes handles => exact h.send table endpoint bytes handles
  | receive table endpoint bytes handles => exact h.receive table endpoint bytes handles
  | duplicate table endpoint mask => exact h.duplicate table endpoint mask
  | release entry => exact h.release entry
  | takeMessage side => exact h.takeMessage side

theorem Inv.run (ops : List Op) : Inv d (w.run ops) :=
  foldlRecOn ops _ h fun _ h op _ => h.step op

end

/-- A channel of `d` messages each way is an exact bounded queue each way. -/
structure Fifo (d : Nat) (w : History) : Prop where
  /-- What a side received is what the other sent first, in order. -/
  inOrder : ∀ s, w.received s <+: w.sent s.peer
  /-- The rest is in its inbox, unless the side is closed and was taken apart. -/
  rest : ∀ s, w.sent s.peer = w.received s ++ w.dropped s ++ (w.channel.ends s).inbox.packets
  kept : ∀ s, (w.channel.ends s).isOpen = true → w.dropped s = []
  /-- There is room when a send succeeds. -/
  bounded : ∀ table endpoint bytes handles next,
    w.channel.send table endpoint bytes handles = (next, .ok ()) →
    ∃ s, w.channel.endpoint table endpoint .write = .ok s ∧
      (w.channel.ends s.peer).inbox.packets.length < d
  /-- A send that fails leaves the channel and the table as they were. -/
  sendFails : ∀ table endpoint bytes handles next e,
    w.channel.send table endpoint bytes handles = (next, .error e) → next = (w.channel, table)
  /-- So does a receive. -/
  receiveFails : ∀ table endpoint bytes handles next e,
    w.channel.receive table endpoint bytes handles = (next, .error e) →
    next = (w.channel, table, bytes, handles)

theorem Inv.fifo (h : Inv d w) : Fifo d w where
  inOrder s := by
    rw [h.exact s, append_assoc]
    exact prefix_append ..
  rest := h.exact
  kept := h.kept
  bounded table endpoint bytes handles next hs := by
    rcases send_cases w.channel table endpoint bytes handles with
      ⟨e, he⟩ | ⟨side, slot, hend, -, -, -, -, hvac, -, -⟩
    · cases he.symm.trans hs
    · refine ⟨side, hend, ?_⟩
      rw [(h.fits side.peer).length_packets]
      exact ((h.fits side.peer).vacant_some hvac).1
  sendFails table endpoint bytes handles next e hs := by
    rcases send_cases w.channel table endpoint bytes handles with ⟨e', he⟩ | ⟨_, _, -, -, -, -, -, -, -, he⟩
    · cases he.symm.trans hs
      rfl
    · cases he.symm.trans hs
  receiveFails table endpoint bytes handles next e hs := by
    rcases receive_cases w.channel table endpoint bytes handles with
      ⟨e', he⟩ | ⟨_, _, _, _, -, -, -, -, -, -, he⟩
    · cases he.symm.trans hs
      rfl
    · cases he.symm.trans hs

/-- Whatever is done to a channel, with whatever arguments. -/
theorem channel_fifo (hd : 0 < d) (a b maxBytes maxHandles : Nat) (rights : Rights)
    (ops : List Op) : Fifo d ((new a b d maxBytes maxHandles rights).run ops) :=
  ((Inv.new hd a b maxBytes maxHandles rights).run ops).fifo

/-- An endpoint, and room beside it for a handle to send or to receive. -/
def endpointTable (more : List HandleOp) (id : Nat) : { t : HandleTable // t.Valid } :=
  ⟨((Life.new 2).run (.insert id .channel .all :: more)).table,
    valid_of_inv ((Life.Inv.new (by decide)).run _)⟩

/-- The event 9 is sent with the first of two messages, to be read only. -/
def twoMessages : History :=
  let sender := endpointTable [.insert 9 .event .all] 1
  let receiver := endpointTable [] 2
  (new 1 2 2 4 1 .all).run
    [.send sender (.new 0 (1 <<< 10)) [7] [⟨.new 1 (1 <<< 10), .read⟩], .send sender (.new 0 (1 <<< 10)) [8, 5] [],
      .receive receiver (.new 0 (1 <<< 10)) [0, 0] [.new 0 0], .receive receiver (.new 0 (1 <<< 10)) [0, 0] []]

theorem channel_fifo_twoMessages : Fifo 2 twoMessages ∧
    (twoMessages.received .b).map (fun p => (p.bytes, p.entries)) = [([7], [⟨9, .event, .read⟩]), ([8, 5], [])] :=
  ⟨channel_fifo (by decide) 1 2 4 1 .all _, by decide +kernel⟩

end History

end Channel

end Kintane
