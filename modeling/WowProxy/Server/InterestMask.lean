/-
  Server/InterestMask.lean --- the events that a connection asks for in the `SOCKSSL`
  build.

  A `SOCKCONN` is accepted with an interest mask in `events`, and `loop_once` stores what
  epoll reports in the same member.  `handle_handshake` edits and registers what it finds
  there, so what the report does not carry is no longer asked for.  Epoll reports what is
  asked for, `EPOLLERR` and `EPOLLHUP`, and never `EPOLLET`.
-/
import Mathlib.Tactic.Common
import WowProxy.Lib.History
import WowProxy.Lib.Runs

set_option autoImplicit false

namespace WowProxy

open WowProxy.Lib.History WowProxy.Lib.Runs

/-! ## Event masks -/

abbrev EventMask : Type := BitVec 32

/-- `EPOLLIN` -/
def epollIn : EventMask := 0x001
/-- `EPOLLOUT` -/
def epollOut : EventMask := 0x004
/-- `EPOLLERR` -/
def epollErr : EventMask := 0x008
/-- `EPOLLHUP` -/
def epollHup : EventMask := 0x010
/-- `EPOLLRDHUP` -/
def epollRdhup : EventMask := 0x2000
/-- `EPOLLET` -/
def epollEt : EventMask := 0x80000000

/-- `mask & flag` as a condition. -/
abbrev EventMask.Has (mask flag : EventMask) : Prop := mask &&& flag ≠ 0

/-- The mask `handle_accept` gives to `malloc_sockconn`. -/
def acceptedMask : EventMask := epollIn ||| epollEt ||| epollRdhup

/-- Epoll may report these events where `registered` is the mask it was given. -/
abbrev Deliverable (registered events : EventMask) : Prop :=
  events &&& ~~~(registered ||| epollErr ||| epollHup) = 0 ∧ ¬ events.Has epollEt

/-! ## The connection -/

/-- What the mask depends on. -/
structure TlsConn where
  /-- `events` of the `SOCKCONN` -/
  events : EventMask
  /-- what epoll was given for the descriptor -/
  registered : EventMask
  sslConnected : Bool
  deriving DecidableEq

/-- What `SSL_do_handshake` and `SSL_get_error` return. -/
inductive HandshakeResult where
  | done
  | wantWrite
  | wantRead
  deriving DecidableEq

/-- One entry of `events` for the connection, with the result of the handshake and
whether `epoll_ctl` succeeds, if they are called. -/
structure Delivery where
  events : EventMask
  result : HandshakeResult
  modified : Bool
  deriving DecidableEq

/-- The branches of `loop_once`. -/
inductive Branch where
  | disconnect
  | handshake
  | read
  | write
  | unknown
  deriving DecidableEq

/-- Which branch `loop_once` takes. -/
def branch (events : EventMask) (sslConnected : Bool) : Branch :=
  if events.Has epollErr ∨ events.Has epollHup then .disconnect
  else if events.Has epollIn ∧ events.Has epollRdhup then .disconnect
  else if events.Has epollIn then if sslConnected then .read else .handshake
  else if events.Has epollOut then if sslConnected then .write else .handshake
  else .unknown

namespace TlsConn

/-- Behind `handle_accept`. -/
def accepted : TlsConn :=
  { events := acceptedMask, registered := acceptedMask, sslConnected := false }

def modifyEpollFd (c : TlsConn) (modified : Bool) : TlsConn :=
  if modified then { c with registered := c.events } else c

/-- The end of `handle_handshake`: registers `events` if it is another. -/
def updateEvents (c : TlsConn) (events : EventMask) (modified : Bool) : TlsConn :=
  if c.events ≠ events then { c with events }.modifyEpollFd modified else c

def handleHandshake (c : TlsConn) (result : HandshakeResult) (modified : Bool) : TlsConn :=
  match result with
  | .done => { c with sslConnected := true }
  | .wantWrite => c.updateEvents ((c.events ||| epollOut) &&& ~~~epollIn) modified
  | .wantRead => c.updateEvents ((c.events ||| epollIn) &&& ~~~epollOut) modified

/-- The turn of `loop_once` for the connection.  The other branches add a job or do
nothing. -/
def handleEvent (c : TlsConn) (d : Delivery) : TlsConn :=
  let c := { c with events := d.events }
  match branch d.events c.sslConnected with
  | .handshake => c.handleHandshake d.result d.modified
  | .disconnect | .read | .write | .unknown => c

/-- One event, if epoll may report it. -/
def step (c : TlsConn) (d : Delivery) : Option TlsConn :=
  if Deliverable c.registered d.events then some (c.handleEvent d) else none

/-- The mask that epoll has contains the one of `handle_accept`. -/
def Interested (c : TlsConn) : Prop := c.registered &&& acceptedMask = acceptedMask

end TlsConn

/-! ## What a delivery does -/

namespace Delivery

/-- The handshake is done with it. -/
def Completes (d : Delivery) : Prop := branch d.events false = .handshake ∧ d.result = .done

/-- The handshake wants to write, and epoll is told. -/
def WantsToWrite (d : Delivery) : Prop :=
  branch d.events false = .handshake ∧ d.result = .wantWrite ∧ d.modified = true

instance (d : Delivery) : Decidable d.Completes := inferInstanceAs (Decidable (_ ∧ _))

instance (d : Delivery) : Decidable d.WantsToWrite := inferInstanceAs (Decidable (_ ∧ _ ∧ _))

end Delivery

/-- Before the handshake is done it never wants to write. -/
def NeverWantsToWrite (deliveries : List Delivery) : Prop :=
  Always (fun before d => (∀ e ∈ before, ¬ e.Completes) → ¬ d.WantsToWrite) deliveries

/-! ## Single flags -/

theorem has_twoPow {mask : EventMask} {i : Nat} (hi : i < 32) :
    mask.Has (BitVec.twoPow 32 i) ↔ mask[i] = true := by
  rw [EventMask.Has, BitVec.and_twoPow, ← BitVec.getLsbD_eq_getElem]
  split
  · rename_i hbit
    refine iff_of_true (fun hzero => ?_) hbit
    have hself := congrArg (BitVec.getLsbD · i) hzero
    simp [hi] at hself
  · rename_i hbit
    exact iff_of_false (fun h => h rfl) hbit

theorem has_epollIn {mask : EventMask} : mask.Has epollIn ↔ mask[0] = true :=
  has_twoPow (i := 0) (by decide)

theorem has_epollOut {mask : EventMask} : mask.Has epollOut ↔ mask[2] = true :=
  has_twoPow (i := 2) (by decide)

theorem has_epollEt {mask : EventMask} : mask.Has epollEt ↔ mask[31] = true :=
  has_twoPow (i := 31) (by decide)

/-- Nobody has asked for `EPOLLOUT` at first. -/
theorem not_epollOut_of_deliverable {events : EventMask} (h : Deliverable acceptedMask events) :
    ¬ events.Has epollOut := by
  rw [has_epollOut]
  have hbit := congrArg (BitVec.getLsbD · 2) h.1
  simpa [acceptedMask, epollIn, epollEt, epollRdhup, epollErr, epollHup] using hbit

theorem wantWrite_ne {events : EventMask} (h : events.Has epollIn) :
    events ≠ (events ||| epollOut) &&& ~~~epollIn := by
  rw [has_epollIn] at h
  intro heq
  have hbit := congrArg (BitVec.getLsbD · 0) heq
  simp [epollIn, epollOut, h] at hbit

theorem wantRead_eq {events : EventMask} (hin : events.Has epollIn)
    (hout : ¬ events.Has epollOut) : (events ||| epollIn) &&& ~~~epollOut = events := by
  rw [has_epollIn] at hin
  rw [has_epollOut] at hout
  refine BitVec.eq_of_getElem_eq fun i hi => ?_
  rw [show epollIn = BitVec.twoPow 32 0 from rfl, show epollOut = BitVec.twoPow 32 2 from rfl]
  simp only [BitVec.getElem_and, BitVec.getElem_or, BitVec.getElem_not, BitVec.getElem_twoPow]
  by_cases hzero : i = 0
  · subst hzero
    rw [hin]
    rfl
  by_cases htwo : i = 2
  · subst htwo
    rw [Bool.eq_false_iff.mpr hout]
    rfl
  · simp [hzero, htwo]

/-- What is reported lacks `EPOLLET`, and the edits do not add it. -/
theorem edited_not_epollEt {events : EventMask} (h : ¬ events.Has epollEt) :
    ¬ EventMask.Has ((events ||| epollOut) &&& ~~~epollIn) epollEt ∧
      ¬ EventMask.Has ((events ||| epollIn) &&& ~~~epollOut) epollEt := by
  rw [has_epollEt] at h
  rw [has_epollEt, has_epollEt]
  simp [epollIn, epollOut, h]

namespace TlsConn

theorem not_interested {c : TlsConn} (h : ¬ c.registered.Has epollEt) : ¬ c.Interested := by
  rw [has_epollEt] at h
  intro hinterested
  have hbit := congrArg (BitVec.getLsbD · 31) hinterested
  simp [acceptedMask, epollIn, epollEt, epollRdhup, h] at hbit

end TlsConn

/-! ## One event -/

/-- There is no handshake once it is done. -/
theorem branch_ne_handshake (events : EventMask) : branch events true ≠ .handshake := by
  intro h
  unfold branch at h
  split_ifs at h <;> simp_all

/-- A handshake follows from `EPOLLIN` or `EPOLLOUT`. -/
theorem has_of_branch_eq_handshake {events : EventMask} (h : branch events false = .handshake) :
    events.Has epollIn ∨ events.Has epollOut := by
  unfold branch at h
  split_ifs at h
  · exact Or.inl ‹_›
  · exact Or.inr ‹_›

namespace TlsConn

theorem handleEvent_of_ne {c : TlsConn} {d : Delivery}
    (h : branch d.events c.sslConnected ≠ .handshake) :
    c.handleEvent d = { c with events := d.events } := by
  rw [handleEvent]
  split
  · contradiction
  all_goals rfl

theorem handleEvent_of_connected {c : TlsConn} (h : c.sslConnected = true) (d : Delivery) :
    c.handleEvent d = { c with events := d.events } :=
  handleEvent_of_ne (by rw [h]; exact branch_ne_handshake d.events)

theorem handleEvent_of_handshake {c : TlsConn} (h : c.sslConnected = false) {d : Delivery}
    (hbranch : branch d.events false = .handshake) :
    c.handleEvent d = { c with events := d.events }.handleHandshake d.result d.modified := by
  rw [handleEvent, h, hbranch]

theorem updateEvents_sslConnected (c : TlsConn) (events : EventMask) (modified : Bool) :
    (c.updateEvents events modified).sslConnected = c.sslConnected := by
  unfold updateEvents modifyEpollFd
  split_ifs <;> rfl

theorem updateEvents_registered (c : TlsConn) (events : EventMask) (modified : Bool) :
    (c.updateEvents events modified).registered =
      if c.events ≠ events ∧ modified = true then events else c.registered := by
  unfold updateEvents modifyEpollFd
  split_ifs <;> simp_all

theorem handleEvent_sslConnected (c : TlsConn) (d : Delivery) :
    (c.handleEvent d).sslConnected = true ↔ c.sslConnected = true ∨ d.Completes := by
  cases hc : c.sslConnected with
  | true =>
    rw [handleEvent_of_connected hc]
    exact iff_of_true hc (Or.inl rfl)
  | false =>
    by_cases hbranch : branch d.events false = .handshake
    · rw [handleEvent_of_handshake hc hbranch]
      unfold Delivery.Completes
      cases hresult : d.result with
      | done => exact iff_of_true rfl (Or.inr ⟨hbranch, rfl⟩)
      | wantWrite | wantRead =>
        rw [handleHandshake, updateEvents_sslConnected, hc]
        simp
    · rw [handleEvent_of_ne (by rw [hc]; exact hbranch)]
      simp [hc, Delivery.Completes, hbranch]

/-- A mask without `EPOLLET` never gets it back. -/
theorem handleEvent_not_epollEt {c : TlsConn} (hc : ¬ c.registered.Has epollEt) {d : Delivery}
    (hd : ¬ d.events.Has epollEt) : ¬ (c.handleEvent d).registered.Has epollEt := by
  by_cases hbranch : c.sslConnected = false ∧ branch d.events false = .handshake
  · rw [handleEvent_of_handshake hbranch.1 hbranch.2]
    obtain ⟨hwrite, hread⟩ := edited_not_epollEt hd
    cases d.result with
    | done => exact hc
    | wantWrite =>
      rw [handleHandshake, updateEvents_registered]
      split_ifs
      · exact hwrite
      · exact hc
    | wantRead =>
      rw [handleHandshake, updateEvents_registered]
      split_ifs
      · exact hread
      · exact hc
  · rw [handleEvent_of_ne]
    · exact hc
    · intro h
      cases hconnected : c.sslConnected with
      | true => exact branch_ne_handshake d.events (hconnected ▸ h)
      | false => exact hbranch ⟨hconnected, hconnected ▸ h⟩

/-- The mask of `handle_accept` is lost exactly when the handshake wants to write. -/
theorem handleEvent_registered {c : TlsConn} (hc : c.sslConnected = false)
    (hreg : c.registered = acceptedMask) {d : Delivery}
    (hd : Deliverable c.registered d.events) :
    (d.WantsToWrite → ¬ (c.handleEvent d).registered.Has epollEt) ∧
      (¬ d.WantsToWrite → (c.handleEvent d).registered = acceptedMask) := by
  rw [hreg] at hd
  by_cases hbranch : branch d.events false = .handshake
  · have hout := not_epollOut_of_deliverable hd
    have hin := (has_of_branch_eq_handshake hbranch).resolve_right hout
    rw [handleEvent_of_handshake hc hbranch]
    unfold Delivery.WantsToWrite
    cases hresult : d.result with
    | done => exact ⟨fun h => absurd h.2.1 (by decide), fun _ => hreg⟩
    | wantWrite =>
      rw [handleHandshake, updateEvents_registered]
      cases hmodified : d.modified with
      | true =>
        rw [if_pos ⟨wantWrite_ne hin, rfl⟩]
        exact ⟨fun _ => (edited_not_epollEt hd.2).1, fun h => absurd ⟨hbranch, rfl, rfl⟩ h⟩
      | false =>
        rw [if_neg fun h => Bool.false_ne_true h.2]
        exact ⟨fun h => absurd h.2.2 (by decide), fun _ => hreg⟩
    | wantRead =>
      rw [handleHandshake, updateEvents_registered,
        if_neg fun h => h.1 (wantRead_eq hin hout).symm]
      exact ⟨fun h => absurd h.2.1 (by decide), fun _ => hreg⟩
  · rw [handleEvent_of_ne (by rw [hc]; exact hbranch)]
    exact ⟨fun h => absurd h.1 hbranch, fun _ => hreg⟩

/-! ## Runs -/

/-- The connection and the deliveries so far. -/
structure Tracks (deliveries : List Delivery) (c : TlsConn) : Prop where
  connected_iff : c.sslConnected = true ↔ ∃ d ∈ deliveries, d.Completes
  kept : NeverWantsToWrite deliveries → c.registered = acceptedMask
  lost : ¬ NeverWantsToWrite deliveries → ¬ c.registered.Has epollEt

theorem tracks_accepted : Tracks [] accepted where
  connected_iff := by simp [accepted]
  kept := fun _ => rfl
  lost := fun h => absurd (always_nil _) h

theorem Tracks.step {deliveries : List Delivery} {c c' : TlsConn} (hc : Tracks deliveries c)
    {d : Delivery} (hstep : c.step d = some c') : Tracks (deliveries ++ [d]) c' := by
  unfold TlsConn.step at hstep
  split at hstep
  swap
  · cases hstep
  rename_i hd
  obtain rfl := Option.some.inj hstep
  have hconnected : (c.handleEvent d).sslConnected = true ↔
      ∃ e ∈ deliveries ++ [d], e.Completes := by
    rw [handleEvent_sslConnected, hc.connected_iff]
    simp [or_and_right, exists_or]
  cases hdone : c.sslConnected with
  | true =>
    -- nothing changes any more
    have hbefore := hc.connected_iff.mp hdone
    have hiff : NeverWantsToWrite (deliveries ++ [d]) ↔ NeverWantsToWrite deliveries := by
      refine always_concat.trans (and_iff_left fun hnone => ?_)
      obtain ⟨e, he, hcompletes⟩ := hbefore
      exact absurd hcompletes (hnone e he)
    refine ⟨hconnected, ?_, ?_⟩
    · rw [hiff, handleEvent_of_connected hdone]
      exact hc.kept
    · rw [hiff, handleEvent_of_connected hdone]
      exact hc.lost
  | false =>
    have hnone : ∀ e ∈ deliveries, ¬ e.Completes := by
      intro e he hcompletes
      rw [hc.connected_iff.mpr ⟨e, he, hcompletes⟩] at hdone
      cases hdone
    have hiff : NeverWantsToWrite (deliveries ++ [d]) ↔
        NeverWantsToWrite deliveries ∧ ¬ d.WantsToWrite :=
      always_concat.trans (and_congr_right fun _ => forall_prop_of_true hnone)
    refine ⟨hconnected, ?_, ?_⟩
    · intro hnever
      obtain ⟨hbefore, hd'⟩ := hiff.mp hnever
      exact (handleEvent_registered hdone (hc.kept hbefore) hd).2 hd'
    · intro hsome
      by_cases hbefore : NeverWantsToWrite deliveries
      · have hd' : d.WantsToWrite := by
          by_contra hd'
          exact hsome (hiff.mpr ⟨hbefore, hd'⟩)
        exact (handleEvent_registered hdone (hc.kept hbefore) hd).1 hd'
      · exact handleEvent_not_epollEt (hc.lost hbefore) hd.2

theorem tracks_of_run {deliveries : List Delivery} {c : TlsConn}
    (hrun : run TlsConn.step accepted deliveries = some c) : Tracks deliveries c :=
  run_history Tracks tracks_accepted (fun _ _ _ _ hc hstep => hc.step hstep) hrun

/-- **A connected connection asks for what it was accepted with, in every state of a run,
exactly when the handshake is never done or never wanted to write before.** -/
theorem interested_iff (deliveries : List Delivery) (c : TlsConn)
    (hrun : run TlsConn.step accepted deliveries = some c) :
    (∀ k t, run TlsConn.step accepted (deliveries.take k) = some t →
      t.sslConnected = true → t.Interested) ↔
      ((∃ d ∈ deliveries, d.Completes) → NeverWantsToWrite deliveries) := by
  constructor
  · intro hall hdone
    have htracks := tracks_of_run hrun
    by_contra hsome
    refine not_interested (htracks.lost hsome) ?_
    refine hall deliveries.length c ?_ (htracks.connected_iff.mpr hdone)
    rw [List.take_length]
    exact hrun
  · intro hnever k t ht hconnected
    have htracks := tracks_of_run ht
    obtain ⟨d, hd, hcompletes⟩ := htracks.connected_iff.mp hconnected
    have hfirst := hnever ⟨d, List.mem_of_mem_take hd, hcompletes⟩
    have hreg := htracks.kept (hfirst.mono (List.take_prefix k deliveries))
    rw [Interested, hreg]
    exact BitVec.and_self

/-- The handshake wants to read, and is done with the next bytes. -/
def sampleDeliveries : List Delivery :=
  [⟨epollIn, .wantRead, true⟩, ⟨epollIn, .done, true⟩]

theorem interested_sample :
    (∀ k t, run TlsConn.step accepted (sampleDeliveries.take k) = some t →
      t.sslConnected = true → t.Interested) ↔
      ((∃ d ∈ sampleDeliveries, d.Completes) → NeverWantsToWrite sampleDeliveries) :=
  interested_iff sampleDeliveries ⟨epollIn, acceptedMask, true⟩ (by decide)

/-- The handshake wants to write, and is done when it can: `EPOLLOUT` remains. -/
theorem wantWrite_not_interested : ¬ ∀ (deliveries : List Delivery) (c : TlsConn),
    run TlsConn.step accepted deliveries = some c → c.sslConnected = true → c.Interested := by
  intro h
  have hinterested := h [⟨epollIn, .wantWrite, true⟩, ⟨epollOut, .done, true⟩]
    ⟨epollOut, epollOut, true⟩ (by decide) rfl
  exact absurd hinterested (by unfold Interested; decide)

end TlsConn

end WowProxy
