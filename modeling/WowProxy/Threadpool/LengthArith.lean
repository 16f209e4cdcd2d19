/-
  Threadpool/LengthArith.lean --- the lengths that `analysis_message` computes from
  what `read_sock_func` passes it.

  The byte count goes from `int` to `size_t`, loses `HEADSIZE`, and comes back as the
  `int` that `crc8` counts down from.  The only guard looks at the count before the
  subtraction, and `readn` returns what it has when the socket runs empty, so that
  one or two bytes of a message pass the guard and wrap, or leave nothing.
-/
import WowProxy.Threadpool.Drain

set_option autoImplicit false

namespace WowProxy

open WowProxy.Lib.CString

/-! ## Calls of `analysis_message` -/

/-- The arguments of a call, and the bytes that `readn` has stored in the buffer. -/
structure AnalysisCall where
  buf : Option (List UInt8)
  nbytes : Int
  stored : List UInt8
  deriving DecidableEq, Repr

namespace AnalysisCall

/-- `nbytes - HEADSIZE`, as the `size_t` handed to `calloc`. -/
def size (c : AnalysisCall) : Nat := sizeT (c.nbytes - headSize)

/-- The same, as the `int` handed to `reverse_crc_data`. -/
def len (c : AnalysisCall) : Int := toInt32 c.size

/-- The lengths are those of data behind the header. -/
structure Sound (c : AnalysisCall) : Prop where
  /-- `size_t` and `int` agree -/
  same : (c.size : Int) = c.len
  positive : 1 ≤ c.len
  inside : c.len ≤ (c.stored.drop headSize).length
  /-- the loop of `crc8` ends inside the data -/
  crc : crc8 (c.stored.drop headSize) c.len ≠ none
  /-- the length of the `memcpy` does not wrap -/
  copy : sizeT (c.len - 1) < c.size

end AnalysisCall

section Calls

variable {σ : Type} (sock : ClientSock σ)

/-- `read_normal_sock`, with the bytes that `readn` stored. -/
def readNormalSockStored (turns : Nat) (s : σ) : Option (AnalysisCall × σ) :=
  match recvPeek sock headSize s with
  | none => none
  | some (.error _, s) => some (⟨none, -1, []⟩, s)
  | some (.ok [], s) => some (⟨none, 0, []⟩, s)
  | some (.ok (b :: bytes), s) =>
    if bytes.length < headSize then
      let nLeft := convertHexToInt (padded (b :: bytes) (headSize + 1)) headSize
      if nLeft ≤ 0 then some (⟨none, -1, []⟩, s)
      else
        let size := nLeft.toNat + headSize
        match readn sock turns size s with
        | none => none
        | some (nRead, got, s) => some (⟨some (padded got size), nRead, got⟩, s)
    else none

theorem readNormalSock_eq (turns : Nat) (s : σ) :
    readNormalSock sock turns s =
      (readNormalSockStored sock turns s).map fun p => (p.1.nbytes, p.1.buf, p.2) := by
  unfold readNormalSock readNormalSockStored
  cases recvPeek sock headSize s with
  | none => rfl
  | some peeked =>
    obtain ⟨r, s⟩ := peeked
    cases r with
    | error e => rfl
    | ok head =>
      cases head with
      | nil => rfl
      | cons b bytes =>
        dsimp only
        by_cases hshort : bytes.length < headSize
        · rw [if_pos hshort, if_pos hshort]
          by_cases hzero : convertHexToInt (padded (b :: bytes) (headSize + 1)) headSize ≤ 0
          · rw [if_pos hzero, if_pos hzero]
            rfl
          · rw [if_neg hzero, if_neg hzero]
            cases readn sock turns ((convertHexToInt (padded (b :: bytes) (headSize + 1))
              headSize).toNat + headSize) s <;> rfl
        · rw [if_neg hshort, if_neg hshort]
          rfl

/-- The calls of `analysis_message` that a job makes from the state `s` of its socket
on, an undefined one included. -/
def analysisCalls (d : Decoder) (turns : Nat) : Nat → σ → List AnalysisCall
  | 0, _ => []
  | fuel + 1, s =>
    match readNormalSockStored sock turns s with
    | none => []
    | some (c, s) =>
      if c.nbytes < 0 then []
      else
        match analysisMessage d c.buf c.nbytes.toNat with
        | none => [c]
        | some cmds => if cmds = [] then [c] else c :: analysisCalls d turns fuel s

/-- They are the messages of the job, where it returns. -/
theorem readSockLoop_messages_eq (d : Decoder) (turns : Nat) :
    ∀ (fuel : Nat) (job out : ReadJob σ), readSockLoop sock d turns fuel job = some out →
      out.messages = job.messages ++
        (analysisCalls sock d turns fuel job.sock).map fun c => ⟨c.buf, c.nbytes⟩ := by
  intro fuel
  induction fuel with
  | zero => intro job out h; simp [readSockLoop] at h
  | succ fuel ih =>
    intro job out h
    obtain ⟨m, s, hread, hcase⟩ := readSockLoop_cases sock h
    rw [readNormalSock_eq] at hread
    obtain ⟨⟨c, s'⟩, hstored, hm⟩ := Option.map_eq_some_iff.mp hread
    simp only [Prod.mk.injEq] at hm
    obtain ⟨hnbytes, hbuf, rfl⟩ := hm
    simp only [analysisCalls, hstored]
    rcases hcase with ⟨hneg, rfl⟩ | ⟨cmds, hnonneg, hanalysis, hcase⟩
    · simp [hnbytes, hneg]
    · rw [← hnbytes, ← hbuf] at hanalysis
      rw [← hnbytes] at hnonneg
      have hmessage : m = ⟨c.buf, c.nbytes⟩ := by rw [hbuf, hnbytes]
      simp only [hnonneg, if_false, hanalysis]
      rcases hcase with ⟨hcmds, rfl⟩ | ⟨hcmds, hmore⟩
      · simp [hcmds, ReadJob.pass, hmessage]
      · rw [if_neg hcmds, ih _ out hmore]
        simp [ReadJob.pass, hmessage]

end Calls

/-! ## What the reads bring -/

/-- Reads for `n` bytes bring `bytes`, all of them or up to the end of what has
arrived, and leave the results `rest`. -/
inductive Brings : Nat → List ReadResult → List UInt8 → List ReadResult → Prop
  | done (rest : List ReadResult) : Brings 0 rest [] rest
  | stop {n : Nat} {r : ReadResult} (rest : List ReadResult) :
      r.ends = true → Brings (n + 1) (r :: rest) [] rest
  | eintr {n : Nat} {reads rest : List ReadResult} {bytes : List UInt8} :
      Brings (n + 1) reads bytes rest → Brings (n + 1) (.error .eintr :: reads) bytes rest
  | chunk {n : Nat} {reads rest : List ReadResult} {b : UInt8} {chunk bytes : List UInt8} :
      chunk.length ≤ n → Brings (n - chunk.length) reads bytes rest →
      Brings (n + 1) (.ok (b :: chunk) :: reads) (b :: chunk ++ bytes) rest

theorem Brings.length_le {n : Nat} {script rest : List ReadResult} {bytes : List UInt8}
    (h : Brings n script bytes rest) : bytes.length ≤ n ∧ rest.length ≤ script.length := by
  induction h with
  | done rest => exact ⟨Nat.le_refl 0, Nat.le_refl _⟩
  | stop rest hends => exact ⟨Nat.zero_le _, by simp⟩
  | eintr _ ih =>
    refine ⟨ih.1, ?_⟩
    rw [List.length_cons]
    omega
  | chunk hle _ ih =>
    obtain ⟨hbytes, hrest⟩ := ih
    refine ⟨?_, ?_⟩
    · rw [List.length_append, List.length_cons]
      omega
    · rw [List.length_cons]
      omega

/-- With a turn for each result, `readn` returns what the reads bring. -/
theorem readnLoop_of_brings {n : Nat} {script rest : List ReadResult} {bytes : List UInt8}
    (h : Brings n script bytes rest) :
    ∀ (turns : Nat) (got : List UInt8), script.length ≤ turns →
      readnLoop scriptSock turns n got script =
        some (((got ++ bytes).length : Int), got ++ bytes, rest) := by
  induction h with
  | done rest =>
    intro turns got _
    simp [readnLoop]
  | stop rest hends =>
    intro turns got hturns
    obtain ⟨turns, rfl⟩ : ∃ k, turns = k + 1 :=
      ⟨turns - 1, by rw [List.length_cons] at hturns; omega⟩
    rcases ReadResult.eq_of_ends hends with rfl | rfl <;> simp [readnLoop, scriptSock]
  | eintr _ ih =>
    intro turns got hturns
    rw [List.length_cons] at hturns
    obtain ⟨turns, rfl⟩ : ∃ k, turns = k + 1 := ⟨turns - 1, by omega⟩
    exact ih turns got (by omega)
  | @chunk n reads rest b chunk bytes hle _ ih =>
    intro turns got hturns
    rw [List.length_cons] at hturns
    obtain ⟨turns, rfl⟩ : ∃ k, turns = k + 1 := ⟨turns - 1, by omega⟩
    have hturn : readnLoop scriptSock (turns + 1) (n + 1) got (.ok (b :: chunk) :: reads) =
        readnLoop scriptSock turns (n - chunk.length) (got ++ b :: chunk) reads := by
      simp [readnLoop, scriptSock, hle]
    rw [hturn, ih turns _ (by omega), List.append_assoc]

/-- A `readn` that returns has failed or returns what the reads bring. -/
theorem brings_of_readnLoop :
    ∀ (turns n : Nat) (got got' : List UInt8) (ret : Int) (script rest : List ReadResult),
      readnLoop scriptSock turns n got script = some (ret, got', rest) →
      ret = -1 ∨ ∃ bytes, Brings n script bytes rest ∧ ret = (got ++ bytes).length ∧
        got' = got ++ bytes := by
  intro turns
  induction turns with
  | zero =>
    intro n got got' ret script rest h
    cases n with
    | zero =>
      simp only [readnLoop, Option.some.injEq, Prod.mk.injEq] at h
      obtain ⟨rfl, rfl, rfl⟩ := h
      exact Or.inr ⟨[], .done _, by simp, by simp⟩
    | succ n => simp [readnLoop] at h
  | succ turns ih =>
    intro n got got' ret script rest h
    cases n with
    | zero =>
      simp only [readnLoop, Option.some.injEq, Prod.mk.injEq] at h
      obtain ⟨rfl, rfl, rfl⟩ := h
      exact Or.inr ⟨[], .done _, by simp, by simp⟩
    | succ n =>
      cases script with
      | nil => simp [readnLoop, scriptSock] at h
      | cons first script =>
        by_cases hends : first.ends = true
        · right
          refine ⟨[], ?_⟩
          rcases first.eq_of_ends hends with rfl | rfl <;>
            simp only [readnLoop, scriptSock, Option.some.injEq, Prod.mk.injEq] at h <;>
            obtain ⟨rfl, rfl, rfl⟩ := h <;>
            exact ⟨.stop _ rfl, by simp, by simp⟩
        · cases first with
          | error e =>
            cases e with
            | eagain => exact absurd rfl hends
            | eintr =>
              have h : readnLoop scriptSock turns (n + 1) got script = some (ret, got', rest) := h
              rcases ih _ _ _ _ _ _ h with hret | ⟨bytes, hbrings, hret⟩
              · exact Or.inl hret
              · exact Or.inr ⟨bytes, .eintr hbrings, hret⟩
            | epipe | other =>
              simp only [readnLoop, scriptSock, Option.some.injEq, Prod.mk.injEq] at h
              exact Or.inl h.1.symm
          | ok bytes =>
            cases bytes with
            | nil => exact absurd rfl hends
            | cons b chunk =>
              by_cases hle : chunk.length ≤ n
              · have h : readnLoop scriptSock turns (n - chunk.length) (got ++ b :: chunk) script =
                    some (ret, got', rest) := by
                  simpa [readnLoop, scriptSock, hle] using h
                rcases ih _ _ _ _ _ _ h with hret | ⟨bytes, hbrings, hret⟩
                · exact Or.inl hret
                · refine Or.inr ⟨b :: chunk ++ bytes, .chunk hle hbrings, ?_⟩
                  simpa [List.append_assoc] using hret
              · simp [readnLoop, scriptSock, hle] at h

/-- The next message of the script brings `bytes` of the `size` bytes that its header
announces. -/
def BringsMessage (script : List ReadResult) (size : Nat) (bytes : List UInt8)
    (rest : List ReadResult) : Prop :=
  ∃ head reads, PeeksAt script head reads ∧ size = (peekedValue head).toNat + headSize ∧
    Brings size reads bytes rest

theorem peekedValue_le {head : List UInt8} (h : head.length ≤ headSize) :
    peekedValue head ≤ 65535 := by
  have hbyte := fun b : UInt8 => b.toNat_lt
  rcases head with _ | ⟨hi, _ | ⟨lo, rest⟩⟩
  · decide
  · have hvalue := convertHexToInt_pair hi 0 [0]
    have hhi := hbyte hi
    have heq : peekedValue [hi] = 256 * hi.toNat + (0 : UInt8).toNat := hvalue
    rw [heq]
    simp
    omega
  · have hrest : rest = [] := by
      rw [List.length_cons, List.length_cons, headSize] at h
      exact List.length_eq_zero_iff.mp (by omega)
    subst hrest
    have hvalue := convertHexToInt_pair hi lo [0]
    have hhi := hbyte hi
    have hlo := hbyte lo
    have heq : peekedValue [hi, lo] = 256 * hi.toNat + lo.toNat := hvalue
    rw [heq]
    omega

theorem BringsMessage.length_le {script rest : List ReadResult} {size : Nat}
    {bytes : List UInt8} (h : BringsMessage script size bytes rest) :
    bytes.length ≤ 65537 ∧ rest.length < script.length := by
  obtain ⟨head, reads, hpeek, rfl, hbrings⟩ := h
  obtain ⟨hbytes, hrest⟩ := hbrings.length_le
  have hvalue := peekedValue_le hpeek.length_le
  obtain ⟨k, -, rfl⟩ := hpeek.script_eq
  refine ⟨?_, ?_⟩
  · rw [headSize] at hbytes
    omega
  · rw [List.length_append, List.length_cons]
    omega

/-- The call that is made for a message. -/
def callOf (size : Nat) (bytes : List UInt8) : AnalysisCall :=
  ⟨some (padded bytes size), bytes.length, bytes⟩

theorem readNormalSockStored_peeksAt {script reads : List ReadResult} {head : List UInt8}
    (h : PeeksAt script head reads) (turns : Nat) :
    readNormalSockStored scriptSock turns script =
      (readn scriptSock turns ((peekedValue head).toNat + headSize) reads).map fun p =>
        (⟨some (padded p.2.1 ((peekedValue head).toNat + headSize)), p.1, p.2.1⟩, p.2.2) := by
  obtain ⟨⟨k, hk, rfl⟩, hlength, hpos⟩ := h
  have hpeek : recvPeek scriptSock headSize (interrupted k ++ .ok head :: reads) =
      some (.ok head, reads) :=
    recvPeekLoop_answered headSize (by simp) reads k 10 _ hk
  cases head with
  | nil => exact absurd hpos (by decide)
  | cons b bytes =>
    have hshort : bytes.length < headSize := by rw [List.length_cons] at hlength; omega
    unfold peekedValue at hpos ⊢
    simp only [readNormalSockStored, hpeek, hshort, if_true, Int.not_le.mpr hpos, if_false]
    cases readn scriptSock turns ((convertHexToInt (padded (b :: bytes) (headSize + 1))
      headSize).toNat + headSize) reads <;> rfl

/-- With a turn for each result, a message that comes is passed on. -/
theorem readNormalSockStored_of_brings {script rest : List ReadResult} {size : Nat}
    {bytes : List UInt8} (h : BringsMessage script size bytes rest) {turns : Nat}
    (hturns : script.length ≤ turns) :
    readNormalSockStored scriptSock turns script = some (callOf size bytes, rest) := by
  obtain ⟨head, reads, hpeek, rfl, hbrings⟩ := h
  have hreads : reads.length ≤ turns := by
    obtain ⟨k, -, rfl⟩ := hpeek.script_eq
    rw [List.length_append, List.length_cons] at hturns
    omega
  rw [readNormalSockStored_peeksAt hpeek, readn, readnLoop_of_brings hbrings turns [] hreads]
  rfl

/-- A call with a positive byte count is made for a message that comes. -/
theorem brings_of_readNormalSockStored {turns : Nat} {script rest : List ReadResult}
    {c : AnalysisCall} (h : readNormalSockStored scriptSock turns script = some (c, rest))
    (hpos : 0 < c.nbytes) :
    ∃ size bytes, BringsMessage script size bytes rest ∧ c = callOf size bytes := by
  cases hpeek : recvPeek scriptSock headSize script with
  | none => simp [readNormalSockStored, hpeek] at h
  | some out =>
    obtain ⟨r, later⟩ := out
    cases r with
    | error e =>
      simp only [readNormalSockStored, hpeek, Option.some.injEq, Prod.mk.injEq] at h
      rw [← h.1] at hpos
      exact absurd hpos (by decide)
    | ok head =>
      cases head with
      | nil =>
        simp only [readNormalSockStored, hpeek, Option.some.injEq, Prod.mk.injEq] at h
        rw [← h.1] at hpos
        exact absurd hpos (by decide)
      | cons b bytes =>
        have hscript : ∃ k < 10, script = interrupted k ++ .ok (b :: bytes) :: later := by
          rcases recvPeekLoop_cases headSize 10 _ _ script later hpeek with h | ⟨-, hr⟩
          · exact h
          · exact absurd hr (by simp)
        by_cases hshort : bytes.length < headSize
        · by_cases hvalue : 0 < peekedValue (b :: bytes)
          · have hat : PeeksAt script (b :: bytes) later :=
              ⟨hscript, by rw [List.length_cons]; omega, hvalue⟩
            rw [readNormalSockStored_peeksAt hat] at h
            obtain ⟨⟨nRead, got, s⟩, hreadn, hout⟩ := Option.map_eq_some_iff.mp h
            simp only [Prod.mk.injEq] at hout
            obtain ⟨rfl, rfl⟩ := hout
            rcases brings_of_readnLoop _ _ _ _ _ _ _ hreadn with
              hfailed | ⟨taken, hbrings, hret, hgot⟩
            · rw [hfailed] at hpos
              exact absurd (show (0 : Int) < -1 from hpos) (by decide)
            · rw [List.nil_append] at hret hgot
              refine ⟨_, taken, ⟨b :: bytes, later, hat, rfl, hbrings⟩, ?_⟩
              rw [callOf, hret, hgot]
          · have hzero : convertHexToInt (padded (b :: bytes) (headSize + 1)) headSize ≤ 0 := by
              rw [peekedValue] at hvalue
              omega
            simp only [readNormalSockStored, hpeek, hshort, if_true, hzero, Option.some.injEq,
              Prod.mk.injEq] at h
            rw [← h.1] at hpos
            exact absurd hpos (by decide)
        · simp [readNormalSockStored, hpeek, hshort] at h

/-! ## Lengths -/

theorem crc8_ne_none {data : List UInt8} {n : Nat} (h : n ≤ data.length) :
    crc8 data n ≠ none := by
  have hloop : ∀ (n : Nat) (data : List UInt8) (crc : UInt32), n ≤ data.length →
      crc8Loop n data crc ≠ none := by
    intro n
    induction n with
    | zero => intro data crc _; simp [crc8Loop]
    | succ n ih =>
      intro data crc hle
      cases data with
      | nil => exact absurd hle (by simp)
      | cons b data => exact ih data _ (by simpa using hle)
  intro hnone
  exact hloop n data 0 h (Option.map_eq_none_iff.mp hnone)

/-- The lengths of a message are sound exactly when there is something behind the
header. -/
theorem callOf_sound_iff {size : Nat} {bytes : List UInt8} (hpos : 0 < bytes.length)
    (hle : bytes.length ≤ 65537) :
    (callOf size bytes).Sound ↔ bytes.length ≠ 1 ∧ bytes.length ≠ 2 := by
  by_cases hlong : 3 ≤ bytes.length
  · obtain ⟨n, hn⟩ : ∃ n, bytes.length = n + 2 := ⟨bytes.length - 2, by omega⟩
    have hsub : (bytes.length : Int) - headSize = (n : Int) := by
      rw [hn, headSize]
      omega
    have hsize : (callOf size bytes).size = n := by
      rw [AnalysisCall.size, callOf, hsub, sizeT_of_nonneg (by omega) (by omega),
        Int.toNat_natCast]
    have hlen : (callOf size bytes).len = n := by
      rw [AnalysisCall.len, hsize, toInt32_of_small (by omega) (by omega)]
    have hstored : ((callOf size bytes).stored.drop headSize).length = n := by
      rw [callOf, List.length_drop, hn]
      rfl
    constructor
    · intro _
      omega
    · intro _
      refine ⟨by rw [hsize, hlen], by omega, by omega, ?_, ?_⟩
      · rw [hlen]
        exact crc8_ne_none (by omega)
      · rw [hlen, hsize, sizeT_of_nonneg (by omega) (by omega)]
        omega
  · constructor
    · intro hsound
      have hlen : 1 ≤ toInt32 (sizeT ((bytes.length : Int) - headSize)) := hsound.positive
      have hone : toInt32 (sizeT (((1 : Nat) : Int) - headSize)) = -1 := by decide
      have htwo : toInt32 (sizeT (((2 : Nat) : Int) - headSize)) = 0 := by decide
      refine ⟨fun h => ?_, fun h => ?_⟩
      · rw [h, hone] at hlen
        omega
      · rw [h, htwo] at hlen
        omega
    · rintro ⟨hone, htwo⟩
      omega

/-! ## Jobs -/

/-- A job gets to a message of which one or two bytes come before the socket is
empty or at its end. -/
inductive Stunted (d : Decoder) : List ReadResult → Prop
  | here {script rest : List ReadResult} {size : Nat} {bytes : List UInt8} :
      BringsMessage script size bytes rest → bytes.length = 1 ∨ bytes.length = 2 →
      Stunted d script
  | later {script rest : List ReadResult} {size : Nat} {bytes : List UInt8}
      {cmds : List ParsedCommand} :
      BringsMessage script size bytes rest →
      analysisMessage d (some (padded bytes size)) bytes.length = some cmds → cmds ≠ [] →
      Stunted d rest → Stunted d script

/-- A job that gets to such a message makes an unsound call for it. -/
theorem Stunted.unsound_call {d : Decoder} {script : List ReadResult} (h : Stunted d script)
    {turns : Nat} (hturns : script.length ≤ turns) :
    ∃ fuel, ∃ c ∈ analysisCalls scriptSock d turns fuel script, 0 < c.nbytes ∧ ¬ c.Sound := by
  induction h with
  | @here script rest size bytes hbrings hshort =>
    have hpos : 0 < bytes.length := by omega
    refine ⟨1, callOf size bytes, ?_, by simpa [callOf] using hpos, ?_⟩
    · have hnonneg : ¬ (callOf size bytes).nbytes < 0 := Int.not_lt.mpr (Int.natCast_nonneg _)
      simp only [analysisCalls, readNormalSockStored_of_brings hbrings hturns, hnonneg, if_false]
      split
      · exact List.mem_singleton_self _
      · split
        · exact List.mem_singleton_self _
        · exact List.mem_cons_self
    · rw [callOf_sound_iff hpos hbrings.length_le.1]
      omega
  | @later script rest size bytes cmds hbrings hanalysis hcmds _ ih =>
    obtain ⟨fuel, c, hc, hunsound⟩ := ih (by have := hbrings.length_le.2; omega)
    refine ⟨fuel + 1, c, ?_, hunsound⟩
    have hnonneg : ¬ (callOf size bytes).nbytes < 0 := Int.not_lt.mpr (Int.natCast_nonneg _)
    have hcall : analysisMessage d (callOf size bytes).buf (callOf size bytes).nbytes.toNat =
        some cmds := by
      rw [callOf, Int.toNat_natCast]
      exact hanalysis
    simp only [analysisCalls, readNormalSockStored_of_brings hbrings hturns, hnonneg, if_false,
      hcall, hcmds]
    exact List.mem_cons_of_mem _ hc

theorem analysisMessage_zero (d : Decoder) (buf : Option (List UInt8)) :
    analysisMessage d buf 0 = some [] := by
  cases buf <;> rfl

/-- Every unsound call is made for such a message. -/
theorem stunted_of_unsound {d : Decoder} {turns : Nat} :
    ∀ {fuel : Nat} {script : List ReadResult} {c : AnalysisCall},
      c ∈ analysisCalls scriptSock d turns fuel script → 0 < c.nbytes → ¬ c.Sound →
      Stunted d script := by
  intro fuel
  induction fuel with
  | zero => intro script c hc; exact absurd hc List.not_mem_nil
  | succ fuel ih =>
    intro script c hc hpos hunsound
    rw [analysisCalls] at hc
    split at hc
    · exact absurd hc List.not_mem_nil
    · rename_i call rest hread
      have hhere : c = call → Stunted d script := by
        rintro rfl
        obtain ⟨size, bytes, hbrings, rfl⟩ := brings_of_readNormalSockStored hread hpos
        have hbytes : 0 < bytes.length := by simpa [callOf] using hpos
        rw [callOf_sound_iff hbytes hbrings.length_le.1] at hunsound
        exact .here hbrings (by omega)
      split at hc
      · exact absurd hc List.not_mem_nil
      · split at hc
        · exact hhere (List.mem_singleton.mp hc)
        · rename_i cmds hanalysis
          split at hc
          · exact hhere (List.mem_singleton.mp hc)
          · rename_i hcmds
            rcases List.mem_cons.mp hc with heq | hmem
            · exact hhere heq
            · -- An accepted message has a positive count.
              have hcount : 0 < call.nbytes := by
                rename_i hnonneg
                by_contra hzero
                have hnbytes : call.nbytes.toNat = 0 := by omega
                rw [hnbytes, analysisMessage_zero, Option.some.injEq] at hanalysis
                exact hcmds hanalysis.symm
              obtain ⟨size, bytes, hbrings, rfl⟩ := brings_of_readNormalSockStored hread hcount
              rw [callOf, Int.toNat_natCast] at hanalysis
              exact .later hbrings hanalysis hcmds (ih hmem hpos hunsound)

/-- **All calls of `analysis_message` with a positive byte count compute sound lengths,
exactly when the job gets to no message of which the reads bring one or two bytes.** -/
theorem analysisCalls_sound_iff (d : Decoder) (script : List ReadResult) :
    (∀ turns fuel, ∀ c ∈ analysisCalls scriptSock d turns fuel script,
      0 < c.nbytes → c.Sound) ↔ ¬ Stunted d script := by
  constructor
  · intro hsound hstunted
    obtain ⟨fuel, c, hc, hpos, hunsound⟩ := hstunted.unsound_call (Nat.le_refl _)
    exact hunsound (hsound _ fuel c hc hpos)
  · intro hnot turns fuel c hc hpos
    by_contra hunsound
    exact hnot (stunted_of_unsound hc hpos hunsound)

/-! ## A header without its body -/

/-- No text is JSON. -/
def rejecting : Decoder := { cJsonParse := fun _ => none, valueForKey := fun _ => none }

/-- The header of a message of five bytes arrives, and nothing else. -/
theorem header_alone : ¬ ∀ (d : Decoder) (script : List ReadResult) (turns fuel : Nat),
    ∀ c ∈ analysisCalls scriptSock d turns fuel script, 0 < c.nbytes → c.Sound := by
  intro halways
  have hcalls : analysisCalls scriptSock rejecting 2 1
      [.ok [0, 5], .ok [0, 5], .error .eagain] =
      [⟨some [0, 5, 0, 0, 0, 0, 0], 2, [0, 5]⟩] := by decide +kernel
  have hsound := halways rejecting [.ok [0, 5], .ok [0, 5], .error .eagain] 2 1
    ⟨some [0, 5, 0, 0, 0, 0, 0], 2, [0, 5]⟩ (by rw [hcalls]; exact List.mem_singleton_self _)
    (by decide)
  exact absurd hsound.positive (by decide)

end WowProxy
