/-
  Threadpool/ReplyDelivery.lean --- the replies of `write_sock_func` as the other side
  of the connection decodes them.

  The server prints a tree, puts the text into a frame and hands the frame to
  `writen_fd`.  A reader of the stream undoes this with the functions of `common/`, one
  frame after the other.  As long as the writes take whole frames, it gets back the flag
  and the message of every reply that was sent, in their order.
-/
import Mathlib.Data.List.Forall2
import WowProxy.Common.CJsonPrint
import WowProxy.Threadpool.ReplyFraming

set_option autoImplicit false

namespace WowProxy

open WowProxy.Lib.JsonText WowProxy.Lib.Runs

/-! ## The tree of a reply -/

/-- What `write_sock_func` builds with `cJSON_CreateObject`, `cJSON_AddBoolToObject` and
`cJSON_AddStringToObject`. -/
def replyTree (ν : Type) (isOpOk : Bool) (msg : List UInt8) : Json ν :=
  .object [(ascii "isopok", .bool isOpOk), (ascii "message", .string msg)]

/-- `cJSON_Print` of the tree is the text the reply is computed with. -/
theorem print_replyTree (isOpOk : Bool) {msg : List UInt8} (hnul : 0 ∉ msg) :
    CJson.print (replyTree Int32 isOpOk msg) = some (printReply isOpOk msg) := by
  have hflag : CJson.printValue true 1 (.bool isOpOk) =
      some (ascii (if isOpOk then "true" else "false")) := by cases isOpOk <;> rfl
  have hentries : CJson.printEntries true 1
      [(ascii "isopok", .bool isOpOk), (ascii "message", .string msg)] =
      some [(printStringPtr (ascii "isopok"), ascii (if isOpOk then "true" else "false")),
        (printStringPtr (ascii "message"), printStringPtr msg)] := by
    rw [CJson.printEntries, CJson.printString_eq (by decide), hflag, CJson.printEntries,
      CJson.printString_eq (by decide), CJson.printValue, CJson.printString_eq hnul]
    rfl
  rw [CJson.print, replyTree, CJson.printValue, hentries, Option.bind_some,
    CJson.printMembers_eq true 0 (by simp)]
  congr 1
  simp only [CJson.joinMembers, CJson.tabs, printReply, printObject, List.map_cons, List.map_nil,
    List.intersperse, List.flatten_cons, List.flatten_nil]
  generalize printStringPtr msg = text
  generalize ascii (if isOpOk then "true" else "false") = flag
  generalize printStringPtr (ascii "isopok") = name
  generalize printStringPtr (ascii "message") = name'
  have hnl : ascii "\x7b\n" = [123, 10] := by decide
  have hsep : ascii ",\n" = [44, 10] := by decide
  have htab : ascii "\t" = [9] := by decide
  have hcolon : ascii ":\t" = [58, 9] := by decide
  have hend : ascii "\n\x7d" = [10, 125] := by decide
  rw [hnl, hsep, htab, hcolon, hend]
  simp

/-- The text of a reply reads back to its tree. -/
theorem parse_printReply (isOpOk : Bool) {msg : List UInt8} (hnul : 0 ∉ msg) :
    CJson.parse (printReply isOpOk msg ++ [0]) = .item (replyTree Decimal isOpOk msg) [0] := by
  have hstrings : (replyTree Int32 isOpOk msg).Strings (0 ∉ ·) :=
    ⟨by decide, trivial, by decide, hnul, trivial⟩
  have hend : CJson.Stops [0] := ⟨0, [], rfl, by decide⟩
  obtain ⟨t, hprint, hparse⟩ := CJson.parse_printValue true 0 hstrings hend
  obtain rfl := Option.some.inj (hprint.symm.trans (print_replyTree isOpOk hnul))
  exact hparse

/-! ## Reading the stream -/

/-- The trees that a reader of the stream decodes: each time the header, the checksum and
the text.  It has no value where one of them is wrong. -/
def readReplies : Nat → List UInt8 → Option (List (Json Decimal))
  | 0, _ => none
  | _ + 1, [] => some []
  | fuel + 1, b :: stream =>
    let len := (convertHexToInt (b :: stream) headSize).toNat
    match reverseCrcData (some (((b :: stream).drop headSize).take len)) len (some len) with
    | none => none
    | some (ret, text) =>
      if ret ≠ 0 then none
      else
        match CJson.parse (text ++ [0]) with
        | .item v _ => (readReplies fuel ((b :: stream).drop (headSize + len))).map (v :: ·)
        | _ => none

/-- A frame in front of the stream is decoded, and the rest is read on. -/
theorem readReplies_frame {p : Payload} {v : Json Decimal} {ptr : List UInt8}
    (hp : CJson.parse (p.bytes ++ [0]) = .item v ptr) (fuel : Nat) (stream : List UInt8) :
    readReplies (fuel + 1) (p.frame ++ stream) = (readReplies fuel stream).map (v :: ·) := by
  have hlen : (convertHexToInt (p.frame ++ stream) headSize).toNat = p.bytes.length + 1 := by
    rw [Payload.frame, List.append_assoc, p.convertHexToInt_header]
    omega
  have hbody : ((p.frame ++ stream).drop headSize).take (p.bytes.length + 1) = p.body := by
    have hdrop : (p.frame ++ stream).drop headSize = p.body ++ stream := by
      rw [Payload.frame, List.append_assoc]
      exact List.drop_left' p.length_header
    rw [hdrop]
    exact List.take_left' p.length_body
  have hrest : (p.frame ++ stream).drop (headSize + (p.bytes.length + 1)) = stream :=
    List.drop_left' (by rw [p.length_frame]; simp only [headSize]; omega)
  obtain ⟨b, bs, hcons⟩ : ∃ b bs, p.frame ++ stream = b :: bs := ⟨_, _, rfl⟩
  have hcrc : reverseCrcData (some p.body) ((p.bytes.length + 1 : Nat) : Int)
      (some (p.bytes.length + 1)) = some (0, p.bytes) := p.reverseCrcData_body
  rw [hcons] at hlen hbody hrest ⊢
  simp only [readReplies, hlen, hbody, hrest, hcrc, hp, ne_eq, not_true_eq_false, if_false]

/-- A reader gets the trees of the frames. -/
theorem readReplies_frames : ∀ {frames : List Payload} {vs : List (Json Decimal)} {fuel : Nat},
    List.Forall₂ (fun p v => ∃ ptr, CJson.parse (p.bytes ++ [0]) = .item v ptr) frames vs →
    frames.length < fuel → readReplies fuel (frameBytes frames) = some vs
  | [], _, fuel, h, hfuel => by
    cases h
    obtain ⟨n, rfl⟩ := Nat.exists_eq_succ_of_ne_zero (Nat.ne_of_gt hfuel)
    rfl
  | p :: frames, _, fuel, h, hfuel => by
    obtain ⟨n, rfl⟩ := Nat.exists_eq_succ_of_ne_zero (Nat.ne_of_gt (Nat.zero_lt_of_lt hfuel))
    cases h with
    | cons hp hrest =>
      obtain ⟨ptr, hp⟩ := hp
      rw [List.length_cons] at hfuel
      rw [frameBytes_cons, readReplies_frame hp, readReplies_frames hrest (by omega)]
      rfl

/-! ## Replies while the connection stays open -/

/-- The writes of the call take the whole frame. -/
def ReplyCall.sends {clientFd : Nat} (c : ReplyCall clientFd) : Bool :=
  match replyFrame c.isOpOk c.msg with
  | some (some frame) => taken (course clientFd frame.length c.rounds) == frame.length
  | _ => false

/-- A call adds the bytes of its frame that its writes take, if there is a frame. -/
theorem ReplyCall.receive_cases {clientFd : Nat} {stream stream' : List UInt8}
    {c : ReplyCall clientFd} (h : c.receive stream = some stream') :
    replyFrame c.isOpOk c.msg = some none ∧ stream' = stream ∨
      ∃ p : Payload, p.bytes = printReply c.isOpOk c.msg ∧
        replyFrame c.isOpOk c.msg = some (some p.frame) ∧
        stream' = stream ++ p.frame.take (taken (course clientFd p.frame.length c.rounds)) := by
  obtain ⟨w, hw, rfl⟩ := Option.map_eq_some_iff.mp h
  unfold writeSockFunc at hw
  split at hw
  · exact absurd hw (by simp)
  · rename_i hnone
    obtain rfl := Option.some.inj hw
    exact .inl ⟨hnone, List.append_nil stream⟩
  · rename_i frame hframe
    obtain ⟨w', hw', rfl⟩ := Option.map_eq_some_iff.mp hw
    obtain ⟨p, hbytes, rfl⟩ := replyFrame_payload hframe
    obtain ⟨new, hsince, -, hgot⟩ := (writenFd_sends hw').received_take
      (course_of_staysOpen c.staysOpen _) (show Thread.Since ⟨c.td, []⟩ [] [] from rfl)
    obtain rfl : w'.thread.io = new := hsince
    refine .inr ⟨p, hbytes, hframe, ?_⟩
    dsimp only
    rw [hgot]
    rfl

/-- A call that writes the whole frame or nothing adds the frame or nothing. -/
theorem ReplyCall.receive_whole {clientFd : Nat} {stream stream' : List UInt8}
    {c : ReplyCall clientFd} (h : c.receive stream = some stream') (hwhole : c.WholeOrNone) :
    c.sends = false ∧ stream' = stream ∨
      ∃ p : Payload, p.bytes = printReply c.isOpOk c.msg ∧ c.sends = true ∧
        stream' = stream ++ p.frame := by
  rcases ReplyCall.receive_cases h with ⟨hframe, rfl⟩ | ⟨p, hbytes, hframe, rfl⟩
  · exact .inl ⟨by rw [ReplyCall.sends, hframe], rfl⟩
  · have hsends :
        c.sends = (taken (course clientFd p.frame.length c.rounds) == p.frame.length) := by
      rw [ReplyCall.sends, hframe]
    rcases hwhole p.frame hframe with hnone | hall
    · refine .inl ⟨?_, by rw [hnone, List.take_zero, List.append_nil]⟩
      rw [hsends, hnone, p.length_frame]
      exact beq_eq_false_iff_ne.mpr (by omega)
    · refine .inr ⟨p, hbytes, ?_, by rw [hall, List.take_length]⟩
      rw [hsends, hall]
      exact beq_self_eq_true _

theorem length_le_frameBytes (frames : List Payload) :
    frames.length ≤ (frameBytes frames).length := by
  induction frames with
  | nil => exact Nat.le_refl 0
  | cons p frames ih =>
    rw [frameBytes_cons, List.length_append, p.length_frame, List.length_cons]
    omega

/-- **Whatever replies are written to a client whose connection stays open, if every call's
writes take its whole frame or nothing of it, the stream decodes to the flag and the message
of each reply that was sent, in the order of the calls.** -/
theorem replies_delivered {clientFd : Nat} (calls : List (ReplyCall clientFd))
    {stream : List UInt8} (hrun : run ReplyCall.receive [] calls = some stream)
    (hwhole : ∀ c ∈ calls, c.WholeOrNone) (hnul : ∀ c ∈ calls, 0 ∉ c.msg) :
    readReplies (stream.length + 1) stream =
      some ((calls.filter ReplyCall.sends).map fun c => replyTree Decimal c.isOpOk c.msg) := by
  have hframes := run_history
    (fun calls stream => (∀ c ∈ calls, c.WholeOrNone ∧ 0 ∉ c.msg) →
      ∃ frames, stream = frameBytes frames ∧
        List.Forall₂ (fun p v => ∃ ptr, CJson.parse (p.bytes ++ [0]) = .item v ptr) frames
          ((calls.filter ReplyCall.sends).map fun c => replyTree Decimal c.isOpOk c.msg))
    (fun _ => ⟨[], rfl, .nil⟩) ?_ hrun (fun c hc => ⟨hwhole c hc, hnul c hc⟩)
  · obtain ⟨frames, rfl, hall⟩ := hframes
    exact readReplies_frames hall (Nat.lt_succ_of_le (length_le_frameBytes frames))
  · intro calls stream c stream' hinv hstep hcalls
    obtain ⟨frames, rfl, hall⟩ := hinv fun c' hc' => hcalls c' (List.mem_append_left _ hc')
    obtain ⟨hc, hmsg⟩ := hcalls c (List.mem_append_right _ (List.mem_singleton_self c))
    rcases ReplyCall.receive_whole hstep hc with ⟨hsends, rfl⟩ | ⟨p, hbytes, hsends, rfl⟩
    · refine ⟨frames, rfl, ?_⟩
      rw [List.filter_append, List.filter_cons_of_neg (by rw [hsends]; decide), List.filter_nil,
        List.append_nil]
      exact hall
    · refine ⟨frames ++ [p], by rw [frameBytes_append, frameBytes_cons, frameBytes_nil,
        List.append_nil], ?_⟩
      rw [List.filter_append, List.filter_cons_of_pos hsends, List.filter_nil, List.map_append]
      refine List.rel_append hall (.cons ⟨[0], ?_⟩ .nil)
      rw [hbytes]
      exact parse_printReply c.isOpOk hmsg

/-- A reply in two pieces, and one that the full send buffer keeps out. -/
theorem replies_delivered_wholeReplies :
    ∃ stream, run ReplyCall.receive [] wholeReplies = some stream ∧
      readReplies (stream.length + 1) stream =
        some ((wholeReplies.filter ReplyCall.sends).map fun c =>
          replyTree Decimal c.isOpOk c.msg) := by
  have hsome : (run ReplyCall.receive [] wholeReplies).isSome = true := by decide +kernel
  obtain ⟨stream, hrun⟩ := Option.isSome_iff_exists.mp hsome
  refine ⟨stream, hrun, replies_delivered wholeReplies hrun (fun c hc frame hframe => ?_)
    (by decide)⟩
  simp only [wholeReplies, List.mem_cons, List.not_mem_nil, or_false] at hc
  rcases hc with rfl | rfl
  · right
    rw [replyA_length hframe]
    rfl
  · left
    rw [replyA_length hframe]
    rfl

end WowProxy
