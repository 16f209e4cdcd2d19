/-
  Threadpool/ReplyFraming.lean --- successive replies to one client.

  A client socket is non-blocking.  `writen_fd` returns on `EAGAIN` wherever it
  stands in the frame, `write_sock_func` does not look at what it returns, and the
  next reply starts behind the bytes that did get out.  Frames carry their length in
  front, so that a cut frame makes the whole stream unreadable from there on.
-/
import Mathlib.Algebra.GroupWithZero.Nat
import WowProxy.Common.RequestIntegrity
import WowProxy.Lib.Runs
import WowProxy.Threadpool.ReadSock
import WowProxy.Threadpool.WriteSock

set_option autoImplicit false

namespace WowProxy

open WowProxy.Lib.Runs

/-! ## Streams of frames -/

/-- Whole frames, one behind the other. -/
def Framed (stream : List UInt8) : Prop := ∃ frames : List Payload, stream = frameBytes frames

/-- The first bytes of a frame tell where it ends. -/
theorem Payload.length_eq_of_append {p q : Payload} {x y : List UInt8}
    (h : p.frame ++ x = q.frame ++ y) : p.frame.length = q.frame.length := by
  have hp := p.convertHexToInt_header (p.body ++ x)
  have hq := q.convertHexToInt_header (q.body ++ y)
  rw [← List.append_assoc] at hp hq
  have heq : (p.bytes.length : Int) + 1 = q.bytes.length + 1 := by
    rw [← hp, ← hq]
    exact congrArg (convertHexToInt · headSize) h
  rw [p.length_frame, q.length_frame]
  omega

/-- A stream of frames does not go on with a part of a frame. -/
theorem not_framed_append {frames : List Payload} {p : Payload} {front rest : List UInt8}
    (hp : p.frame = front ++ rest) (hfront : front ≠ []) (hrest : rest ≠ []) :
    ¬ Framed (frameBytes frames ++ front) := by
  rintro ⟨others, hothers⟩
  induction frames generalizing others with
  | nil =>
    rw [frameBytes_nil, List.nil_append] at hothers
    cases others with
    | nil => exact hfront hothers
    | cons q others =>
      rw [frameBytes_cons] at hothers
      have hlen : q.frame.length = p.frame.length := by
        apply Payload.length_eq_of_append (x := frameBytes others ++ rest) (y := [])
        rw [← List.append_assoc, ← hothers, List.append_nil, hp]
      have hfrontlen := congrArg List.length hothers
      have hplen := congrArg List.length hp
      have hrestlen := List.length_pos_iff.mpr hrest
      rw [List.length_append] at hfrontlen hplen
      omega
  | cons q frames ih =>
    rw [frameBytes_cons, List.append_assoc] at hothers
    cases others with
    | nil =>
      have hlen := congrArg List.length hothers
      rw [List.length_append, q.length_frame, frameBytes_nil, List.length_nil] at hlen
      omega
    | cons q' others =>
      rw [frameBytes_cons] at hothers
      have hlen := Payload.length_eq_of_append hothers
      exact ih others (List.append_inj hothers hlen).2

theorem Framed.append_iff {stream : List UInt8} (h : Framed stream) (p : Payload) {k : Nat}
    (hk : k ≤ p.frame.length) :
    Framed (stream ++ p.frame.take k) ↔ k = 0 ∨ k = p.frame.length := by
  obtain ⟨frames, rfl⟩ := h
  constructor
  · intro hframed
    by_contra hpart
    rw [not_or] at hpart
    refine not_framed_append (List.take_append_drop k p.frame).symm ?_ ?_ hframed
    · rw [Ne, List.take_eq_nil_iff]
      rintro (hzero | hnil)
      · exact hpart.1 hzero
      · rw [hnil, List.length_nil] at hk
        omega
    · rw [Ne, List.drop_eq_nil_iff]
      omega
  · rintro (rfl | rfl)
    · exact ⟨frames, by rw [List.take_zero, List.append_nil]⟩
    · refine ⟨frames ++ [p], ?_⟩
      rw [List.take_length, frameBytes_append, frameBytes_cons, frameBytes_nil, List.append_nil]

/-! ## One reply -/

/-- What `write_sock_func` hands to `writen_fd` is a frame. -/
theorem replyFrame_payload {isOpOk : Bool} {msg frame : List UInt8}
    (h : replyFrame isOpOk msg = some (some frame)) :
    ∃ p : Payload, p.bytes = printReply isOpOk msg ∧ frame = p.frame := by
  unfold replyFrame at h
  dsimp only at h
  generalize hjson : printReply isOpOk msg = json at h
  by_cases hlarge : json.length > replyBufSize
  · rw [if_pos hlarge] at h
    exact absurd h (by simp)
  rw [if_neg hlarge] at h
  have hbound : json.length ≤ 4096 := Nat.le_of_not_lt hlarge
  cases hcrc : crcData (some json) json.length (replyBufSize - headSize) with
  | none =>
    rw [hcrc] at h
    exact absurd h (by simp)
  | some out =>
    obtain ⟨len, body⟩ := out
    obtain ⟨hlen, hbody, -⟩ := crcData_eq_some (by omega) hcrc
    let p : Payload := ⟨json, by omega⟩
    have hheader : convertIntToHex len.toNat = some p.header := by
      rw [← p.convertIntToHex_header, hlen]
      congr 1
    rw [hcrc] at h
    dsimp only at h
    rw [if_neg (by omega), hheader, Option.getD_some, Option.some.injEq, Option.some.injEq,
      hbody] at h
    exact ⟨p, rfl, h.symm⟩

/-- How many bytes a move takes. -/
def Move.count : Move → Nat
  | .reconnect _ _ => 0
  | .take count => count

/-- How many bytes the moves of a call take. -/
def taken (moves : List Move) : Nat := (moves.map Move.count).sum

/-- A client connection stays open in a round: the probe does not find it closed, and
`write` does not say so either. -/
def Round.StaysOpen (clientFd : Nat) (r : Round) : Prop :=
  isSockClosedByPeer clientFd r.probe = false ∧ r.write ≠ .error .epipe

instance (clientFd : Nat) (r : Round) : Decidable (r.StaysOpen clientFd) :=
  inferInstanceAs (Decidable (_ ∧ _))

theorem course_of_staysOpen {clientFd : Nat} {rounds : List Round}
    (hopen : ∀ r ∈ rounds, r.StaysOpen clientFd) :
    ∀ n left a, .reconnect left a ∉ course clientFd n rounds := by
  induction rounds with
  | nil =>
    intro n left a
    cases n <;> simp [course]
  | cons r rounds ih =>
    intro n left a
    obtain ⟨hprobe, hwrite⟩ := hopen r List.mem_cons_self
    have ih := ih fun r' hr' => hopen r' (List.mem_cons_of_mem _ hr')
    cases n with
    | zero => simp [course]
    | succ n =>
      rw [course, Round.moves, if_neg (by simp [hprobe]), Round.writeMoves]
      split
      · simp
      · intro hmem
        rcases List.mem_cons.mp hmem with h | h
        · cases h
        · exact ih _ left a h
      · exact ih _ left a
      · rename_i hepipe
        exact absurd hepipe hwrite
      · simp

/-- Without a reconnection, the descriptor gets as many bytes as the moves take. -/
theorem Sends.received_take {pfd n fd out : Nat} {ptr : List UInt8} {t t' : Thread}
    {moves : List Move} {ret : Int} (h : Sends pfd n fd ptr t moves ret out t')
    (hstay : ∀ left a, .reconnect left a ∉ moves) {io new : List Io} (hsince : t.Since io new) :
    ∃ new', t'.Since io new' ∧ taken moves ≤ ptr.length ∧
      received fd new' = received fd new ++ ptr.take (taken moves) := by
  induction h generalizing new with
  | done fd t => exact ⟨new, hsince, Nat.le_refl 0, by simp⟩
  | failed fd t hptr => exact ⟨new, hsince, Nat.zero_le _, by simp [taken]⟩
  | lost fd t hptr hlost => exact absurd List.mem_cons_self (hstay _ _)
  | reconnect fd hptr hconnects rest ih => exact absurd List.mem_cons_self (hstay _ _)
  | @take fd ptr t t' count moves ret out hpos hle rest ih =>
    obtain ⟨new', hsince', htaken, hgot⟩ :=
      ih (fun left a hmem => hstay left a (List.mem_cons_of_mem _ hmem)) (hsince.wrote fd _)
    have hcount : taken (.take count :: moves) = count + taken moves := rfl
    rw [List.length_drop] at htaken
    refine ⟨new', hsince', by omega, ?_⟩
    rw [hgot, received_wrote, List.append_assoc, hcount, List.take_add]

/-! ## Replies to one client -/

/-- A call of `write_sock_func` for the client `clientFd` while its connection stays
open. -/
structure ReplyCall (clientFd : Nat) where
  /-- the connection of the worker to the game server -/
  td : Nat
  isOpOk : Bool
  msg : List UInt8
  rounds : List Round
  staysOpen : ∀ r ∈ rounds, r.StaysOpen clientFd

/-- The bytes that the client has received behind a call. -/
def ReplyCall.receive {clientFd : Nat} (stream : List UInt8) (c : ReplyCall clientFd) :
    Option (List UInt8) :=
  (writeSockFunc clientFd c.isOpOk c.msg ⟨c.td, []⟩ c.rounds).map fun w =>
    stream ++ received clientFd w.thread.io

/-- The writes of the call take the whole frame, if there is one, or nothing of it. -/
def ReplyCall.WholeOrNone {clientFd : Nat} (c : ReplyCall clientFd) : Prop :=
  ∀ frame, replyFrame c.isOpOk c.msg = some (some frame) →
    taken (course clientFd frame.length c.rounds) = 0 ∨
      taken (course clientFd frame.length c.rounds) = frame.length

theorem ReplyCall.framed_iff {clientFd : Nat} {stream stream' : List UInt8}
    {c : ReplyCall clientFd} (hframed : Framed stream) (h : c.receive stream = some stream') :
    Framed stream' ↔ c.WholeOrNone := by
  obtain ⟨w, hw, rfl⟩ := Option.map_eq_some_iff.mp h
  unfold writeSockFunc at hw
  split at hw
  · exact absurd hw (by simp)
  · -- A text beyond the buffer sends nothing.
    rename_i hnone
    obtain rfl := Option.some.inj hw
    simp only [received, List.foldl_nil, List.append_nil, hframed, true_iff]
    intro frame hframe
    rw [hnone] at hframe
    exact absurd hframe (by simp)
  · rename_i frame hframe
    obtain ⟨w', hw', rfl⟩ := Option.map_eq_some_iff.mp hw
    obtain ⟨p, -, rfl⟩ := replyFrame_payload hframe
    obtain ⟨new, hsince, htaken, hgot⟩ := (writenFd_sends hw').received_take
      (course_of_staysOpen c.staysOpen _) (show Thread.Since ⟨c.td, []⟩ [] [] from rfl)
    obtain rfl : w'.thread.io = new := hsince
    dsimp only
    rw [hgot, show received clientFd [] = [] from rfl, List.nil_append,
      hframed.append_iff p htaken]
    constructor
    · intro hwhole frame' hframe'
      obtain rfl : p.frame = frame' :=
        Option.some.inj (Option.some.inj (hframe.symm.trans hframe'))
      exact hwhole
    · intro hwhole
      exact hwhole p.frame hframe

/-- **Behind every reply the client has received whole frames and nothing else, exactly
when in each of them the writes take the whole frame or nothing of it.** -/
theorem replies_framed_iff {clientFd : Nat} (calls : List (ReplyCall clientFd))
    {stream : List UInt8} (hrun : run ReplyCall.receive [] calls = some stream) :
    (∀ k stream', run ReplyCall.receive [] (calls.take k) = some stream' → Framed stream') ↔
      ∀ c ∈ calls, c.WholeOrNone := by
  have hstart : Framed [] := ⟨[], rfl⟩
  exact (run_always_iff (fun _ _ _ => ReplyCall.framed_iff) hstart hrun).trans
    (meets_iff_forall hrun)

/-! ## A full send buffer -/

/-- A round whose `write` takes as many bytes. -/
def takingRound (count : Nat) : Round :=
  { probe := .error .eagain, reset := connecting 7, write := .ok count, again := connecting 7 }

/-- A round that finds the send buffer full. -/
def fullRound : Round :=
  { probe := .error .eagain, reset := connecting 7, write := .error .eagain,
    again := connecting 7 }

/-- The reply `A` to the client 9, with these results. -/
def replyA (rounds : List Round) (h : ∀ r ∈ rounds, r.StaysOpen 9) : ReplyCall 9 :=
  { td := 0, isOpOk := true, msg := [65], rounds, staysOpen := h }

/-- The send buffer takes one byte of a reply. -/
theorem reply_cut : ¬ ∀ (clientFd : Nat) (calls : List (ReplyCall clientFd))
    (stream : List UInt8), run ReplyCall.receive [] calls = some stream →
    ∀ k stream', run ReplyCall.receive [] (calls.take k) = some stream' → Framed stream' := by
  intro halways
  have hrun : run ReplyCall.receive []
      [replyA [takingRound 1, fullRound] (by decide)] = some [0] := by
    decide +kernel
  obtain ⟨frames, hframes⟩ := halways 9 _ _ hrun 1 _ hrun
  cases frames with
  | nil => exact absurd hframes (by simp)
  | cons p frames =>
    have hlen := congrArg List.length hframes
    rw [frameBytes_cons, List.length_append, p.length_frame, List.length_singleton] at hlen
    omega

theorem replyA_length {frame : List UInt8} (h : replyFrame true [65] = some (some frame)) :
    frame.length = 39 := by
  have hlen : (replyFrame true [65]).map (Option.map List.length) = some (some 39) := by
    decide +kernel
  rw [h] at hlen
  exact Option.some.inj (Option.some.inj hlen)

/-- A reply sent in two pieces, and one that the full buffer keeps out. -/
def wholeReplies : List (ReplyCall 9) :=
  [replyA [takingRound 20, takingRound 19] (by decide), replyA [fullRound] (by decide)]

theorem wholeReplies_framed :
    ∃ stream, run ReplyCall.receive [] wholeReplies = some stream ∧ Framed stream := by
  have hsome : (run ReplyCall.receive [] wholeReplies).isSome = true := by decide +kernel
  obtain ⟨stream, hrun⟩ := Option.isSome_iff_exists.mp hsome
  have hall := (replies_framed_iff wholeReplies hrun).mpr fun c hc frame hframe => by
    simp only [wholeReplies, List.mem_cons, List.not_mem_nil, or_false] at hc
    rcases hc with rfl | rfl
    · right
      rw [replyA_length hframe]
      rfl
    · left
      rw [replyA_length hframe]
      rfl
  exact ⟨stream, hrun, hall 2 stream hrun⟩

end WowProxy
