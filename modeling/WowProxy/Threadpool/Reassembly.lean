/-
  Threadpool/Reassembly.lean --- the messages that the read jobs of one
  connection make of its byte stream.

  A job keeps nothing of a message it has read in part, so whether the messages
  are the frames the client sent depends on where the stream is cut into
  arrivals.  `Segmented` says which cuts are harmless.
-/
import WowProxy.Threadpool.ReadSock

set_option autoImplicit false

namespace WowProxy

/-- The messages of the jobs that successive arrivals trigger, when `pending` is
in the receive buffer before the first.  Each job runs to its end before the
next arrival; what it leaves in the buffer stays there. -/
def readJobs (d : Decoder) (turns fuel : Nat) :
    List UInt8 → List (List UInt8) → Option (List Message)
  | _, [] => some []
  | pending, bytes :: arrivals =>
    match readSockFunc arrivedSock d turns fuel (pending ++ bytes) with
    | none => none
    | some job => (readJobs d turns fuel job.sock arrivals).map (job.messages ++ ·)

/-- The arrivals cut the stream of the frames where the jobs can resume.  Each
one completes whole frames, of which only the last may be rejected; behind them
is nothing, or a lone zero, which is the first header byte of a frame with fewer
than 256 bytes of body, or, behind a rejected frame, anything. -/
inductive Segmented (d : Decoder) : List UInt8 → List Payload → List (List UInt8) → Prop
  | done : Segmented d [] [] []
  | arrival {pending bytes rest : List UInt8} {group frames : List Payload}
      {arrivals : List (List UInt8)}
      (hcut : pending ++ bytes = frameBytes group ++ rest)
      (haccept : ∀ p ∈ group.dropLast, d.accepts p)
      (hrest : rest = [] ∨ rest = [0] ∨ ∃ p, group.getLast? = some p ∧ ¬ d.accepts p)
      (hmore : Segmented d rest frames arrivals) :
      Segmented d pending (group ++ frames) (bytes :: arrivals)

/-! ## The header at a frame boundary -/

/-- In front of a frame, only an empty buffer or its lone zero shows no positive
header: the whole header of a frame is positive. -/
theorem eq_nil_or_zero_of_headerValue {rest more : List UInt8} {frames : List Payload}
    (hstream : rest ++ more = frameBytes frames) (hvalue : headerValue rest ≤ 0) :
    rest = [] ∨ rest = [0] := by
  rcases rest with _ | ⟨hi, _ | ⟨lo, tail⟩⟩
  · exact Or.inl rfl
  · rw [headerValue_singleton] at hvalue
    have hzero : hi = 0 := UInt8.toNat_inj.mp (by rw [UInt8.toNat_zero]; omega)
    exact Or.inr (by rw [hzero])
  · cases frames with
    | nil => exact absurd hstream (by simp)
    | cons p frames =>
      have hheader : headerValue (hi :: lo :: tail) =
          headerValue (p.frame ++ frameBytes frames) := by
        rw [← frameBytes_cons, ← hstream, List.cons_append, List.cons_append,
          headerValue_cons_cons, headerValue_cons_cons]
      rw [hheader, headerValue_frame] at hvalue
      omega

/-! ## Reassembly -/

/-- Arrivals cut as `Segmented` says are read as the frames that were sent. -/
theorem readJobs_of_segmented {d : Decoder} {turns fuel : Nat} (hturns : 2 ≤ turns)
    {pending : List UInt8} {frames : List Payload} {arrivals : List (List UInt8)}
    (h : Segmented d pending frames arrivals) (hfuel : frames.length < fuel) :
    readJobs d turns fuel pending arrivals = some (frames.map Payload.message) := by
  induction h with
  | done => rfl
  | @arrival pending bytes rest group frames arrivals hcut haccept hrest _ ih =>
    rw [List.length_append] at hfuel
    have hstop : StopsAt d group rest := by
      rcases hrest with rfl | rfl | hlast
      · exact Or.inl (by decide)
      · exact Or.inl (by decide)
      · exact Or.inr hlast
    have hjob := readSockLoop_frames d hturns group fuel
      { messages := [], executed := [], sock := pending ++ bytes } rest (by omega) hcut
      haccept hstop
    rw [readJobs, readSockFunc, hjob]
    simp only [ReadJob.after, ih (by omega), Option.map_some, List.nil_append, List.map_append]

/-- Arrivals that are read as the frames that were sent are cut as `Segmented`
says. -/
theorem segmented_of_readJobs {d : Decoder} {turns fuel : Nat} (hturns : 2 ≤ turns)
    (arrivals : List (List UInt8)) :
    ∀ (pending : List UInt8) (frames : List Payload),
      pending ++ arrivals.flatten = frameBytes frames →
      readJobs d turns fuel pending arrivals = some (frames.map Payload.message) →
      Segmented d pending frames arrivals := by
  induction arrivals with
  | nil =>
    intro pending frames hstream hread
    have hframes : frames = [] := by simpa [readJobs] using hread.symm
    subst hframes
    have hpending : pending = [] := by simpa using hstream
    subst hpending
    exact .done
  | cons bytes arrivals ih =>
    intro pending frames hstream hread
    rw [readJobs] at hread
    cases hjob : readSockFunc arrivedSock d turns fuel (pending ++ bytes) with
    | none => rw [hjob] at hread; exact absurd hread (by simp)
    | some job =>
      rw [hjob] at hread
      obtain ⟨later, hlater, hsplit⟩ := Option.map_eq_some_iff.mp hread
      -- The frames are those of this job followed by those of the later ones.
      obtain ⟨group, rest, rfl, hgroup, hframes⟩ := List.map_eq_append_iff.mp hsplit.symm
      obtain ⟨new, hnew, hgroups⟩ := readSockLoop_messages d hturns fuel _ job hjob
      rw [List.nil_append] at hnew
      obtain ⟨hcut, haccept, hstop⟩ := hgroups group (by rw [← hnew, hgroup])
      have hcut : pending ++ bytes = frameBytes group ++ job.sock := hcut
      have hrest : job.sock ++ arrivals.flatten = frameBytes rest := by
        rw [List.flatten_cons, ← List.append_assoc, hcut, List.append_assoc,
          frameBytes_append] at hstream
        exact List.append_cancel_left hstream
      refine .arrival hcut haccept ?_ (ih job.sock rest hrest (by rw [hlater, hframes]))
      rcases hstop with hvalue | hlast
      · rcases eq_nil_or_zero_of_headerValue hrest hvalue with h | h
        · exact Or.inl h
        · exact Or.inr (Or.inl h)
      · exact Or.inr (Or.inr hlast)

/-- **The jobs pass on exactly the frames that were sent if and only if the
arrivals cut the stream where a job can resume.** -/
theorem readJobs_frames_iff (d : Decoder) {turns fuel : Nat} (hturns : 2 ≤ turns)
    {frames : List Payload} (hfuel : frames.length < fuel) {arrivals : List (List UInt8)}
    (hstream : arrivals.flatten = frameBytes frames) :
    readJobs d turns fuel [] arrivals = some (frames.map Payload.message) ↔
      Segmented d [] frames arrivals := by
  constructor
  · intro hread
    exact segmented_of_readJobs hturns arrivals [] frames (by rw [List.nil_append, hstream]) hread
  · intro hcut
    exact readJobs_of_segmented hturns hcut hfuel

/-- Three frames, the second of which is cut behind its first header byte. -/
def cutArrivals : List (List UInt8) :=
  [payloadA.frame ++ [0], payloadA.frame.drop 1, payloadA.frame]

theorem readJobs_frames_cutArrivals :
    Segmented ⟨fun _ => none, fun _ => none⟩ [] (List.replicate 3 payloadA) cutArrivals ∧
      readJobs ⟨fun _ => none, fun _ => none⟩ 2 4 [] cutArrivals =
        some ((List.replicate 3 payloadA).map Payload.message) := by
  have hread : readJobs ⟨fun _ => none, fun _ => none⟩ 2 4 [] cutArrivals =
      some ((List.replicate 3 payloadA).map Payload.message) := by decide +kernel
  have hcut := (readJobs_frames_iff ⟨fun _ => none, fun _ => none⟩ (Nat.le_refl 2)
    (show (List.replicate 3 payloadA).length < 4 by decide)
    (show cutArrivals.flatten = frameBytes (List.replicate 3 payloadA) by decide)).mp hread
  exact ⟨hcut, hread⟩

/-- A frame whose last byte comes in an arrival of its own. -/
theorem readJobs_cut_in_body :
    ¬ ∀ (d : Decoder) (turns fuel : Nat) (frames : List Payload)
        (arrivals : List (List UInt8)), 2 ≤ turns → frames.length < fuel →
      arrivals.flatten = frameBytes frames →
      readJobs d turns fuel [] arrivals = some (frames.map Payload.message) := by
  intro h
  have hread := h ⟨fun _ => none, fun _ => none⟩ 2 2 [payloadA]
    [payloadA.frame.take 3, payloadA.frame.drop 3] (by decide) (by decide) (by decide)
  -- The first job passes on three bytes and a padding.
  have hbytes : (readJobs ⟨fun _ => none, fun _ => none⟩ 2 2 []
      [payloadA.frame.take 3, payloadA.frame.drop 3]).map (·.map Message.nbytes) ≠ some [4] := by
    decide +kernel
  rw [hread] at hbytes
  exact hbytes (by decide)

end WowProxy
