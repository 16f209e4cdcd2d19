/-
  Common/ReadnFd.lean --- `readn_fd` of `common/utility.c`: one `select`, then a
  do-while loop that reads the answer of the game server in chunks and joins
  them with `strcat`.

  The chunk buffer `szBuf` has `MAX_BUF_SIZE` bytes, is cleared once and gets no
  terminator after a read, so `strcat` sees whatever the last read left in it.
  `readnFdTurn` is one turn of the loop; a turn whose `strcat` runs out of a
  buffer has the value `none`.
-/
import WowProxy.Common.Config
import WowProxy.Lib.CString

set_option autoImplicit false

namespace WowProxy

open WowProxy.Lib.CString

/-! ## The loop -/

/-- The value `read` returned. -/
def ReadResult.count : ReadResult → Int
  | .ok bytes => bytes.length
  | .error _ => -1

/-- `szBuf` after the call: a read overwrites its beginning. -/
def ReadResult.store : ReadResult → List UInt8 → List UInt8
  | .ok bytes, szBuf => bytes ++ szBuf.drop bytes.length
  | .error _, szBuf => szBuf

/-- The locals of the loop.  `appended` is no variable of the source: it keeps
the strings `strcat` has appended so far. -/
structure ReadnFdState where
  szData : List UInt8
  szBuf : List UInt8
  totalByte : Int
  appended : List (List UInt8)
  deriving DecidableEq, Repr

/-- The locals on entry. -/
def readnFdStart (nData : Nat) : ReadnFdState :=
  { szData := List.replicate nData 0, szBuf := List.replicate maxBufSize 0, totalByte := 0,
    appended := [] }

/-- One turn of the loop and whether another follows.  The sum is compared with
`nData` as a `size_t`, so a negative one counts as too large.  A turn has no
value where `read` takes more than `MAX_BUF_SIZE` bytes. -/
def readnFdTurn (nData : Nat) (st : ReadnFdState) (r : ReadResult) :
    Option (ReadnFdState × Bool) :=
  if r.count > maxBufSize then none
  else do
    let szBuf := r.store st.szBuf
    let totalByte := st.totalByte + r.count
    if sizeT totalByte < nData then
      let text ← cstr szBuf
      let szData ← strcat st.szData szBuf
      return ({ szData, szBuf, totalByte, appended := st.appended ++ [text] },
        r.count == (maxBufSize : Int))
    else
      return ({ st with szBuf, totalByte := totalByte - r.count }, false)

/-- The do-while loop over the results of `read`.  It has no value where the
next `read` has not returned. -/
def readnFdLoop (nData : Nat) : ReadnFdState → List ReadResult →
    Option (ReadnFdState × List ReadResult)
  | _, [] => none
  | st, r :: reads =>
    match readnFdTurn nData st r with
    | none => none
    | some (st', true) => readnFdLoop nData st' reads
    | some (st', false) => some (st', reads)

/-- What a call of `readn_fd` leaves behind. -/
structure ReadnFd where
  /-- the returned value -/
  ret : Int
  szData : List UInt8
  /-- the strings `strcat` appended, in order -/
  appended : List (List UInt8)
  /-- results of `read` the call did not use -/
  rest : List ReadResult
  deriving DecidableEq, Repr

/-- `readn_fd(fd_read, szData, nData)` where `select` returned `retval`. -/
def readnFd (fdRead : Nat) (szData : List UInt8) (nData : Nat) (retval : Int)
    (reads : List ReadResult) : Option ReadnFd :=
  if fdRead = 0 then
    some { ret := -1, szData, appended := [], rest := reads }
  else
    let start := readnFdStart nData
    if retval > 0 then
      (readnFdLoop nData start reads).map fun (st, rest) =>
        { ret := st.totalByte, szData := st.szData, appended := st.appended, rest }
    else
      -- The operation was timed out.
      some { ret := start.totalByte, szData := start.szData, appended := [], rest := reads }

/-! ## The first read decides -/

/-- A call whose `select` reports data runs the loop from the cleared buffers. -/
theorem readnFd_ready {fdRead nData : Nat} (hfd : fdRead ≠ 0) (szData : List UInt8)
    {retval : Int} (hready : retval > 0) (reads : List ReadResult) :
    readnFd fdRead szData nData retval reads =
      (readnFdLoop nData (readnFdStart nData) reads).map fun (st, rest) =>
        { ret := st.totalByte, szData := st.szData, appended := st.appended, rest } := by
  simp only [readnFd, hfd, if_false, hready, if_true]

theorem store_start {bytes : List UInt8} (nData : Nat) :
    ReadResult.store (.ok bytes) (readnFdStart nData).szBuf = padded bytes maxBufSize := by
  simp only [ReadResult.store, readnFdStart, padded, List.drop_replicate]

section FirstRead

variable {nData : Nat} {bytes : List UInt8}

/-- The total after a first read stays below the size of the data buffer. -/
theorem sizeT_first_read (hlen : bytes.length < nData) (hsize : nData ≤ 2 ^ 32) :
    sizeT ((readnFdStart nData).totalByte + ReadResult.count (.ok bytes)) < nData := by
  have h0 : (readnFdStart nData).totalByte = 0 := rfl
  have h1 : ReadResult.count (.ok bytes) = bytes.length := rfl
  rw [h0, h1, Int.zero_add, sizeT_of_nonneg (by omega) (by omega)]
  omega

/-- A first read that does not fill the chunk buffer ends the loop with exactly
its bytes. -/
theorem readnFdTurn_start_short (hnul : 0 ∉ bytes) (hlen : bytes.length < maxBufSize)
    (hroom : bytes.length < nData) (hsize : nData ≤ 2 ^ 32) :
    readnFdTurn nData (readnFdStart nData) (.ok bytes) =
      some ({ szData := padded bytes nData, szBuf := padded bytes maxBufSize,
              totalByte := bytes.length, appended := [bytes] }, false) := by
  have htext : cstr (padded bytes maxBufSize) = some bytes := cstr_padded hnul hlen
  have hcat : strcat (readnFdStart nData).szData (padded bytes maxBufSize) =
      some (padded bytes nData) := by
    have hempty : (readnFdStart nData).szData = padded [] nData := (padded_nil nData).symm
    rw [hempty, strcat_padded (by simp) htext (by rw [List.length_nil]; omega),
      List.nil_append]
  have hstop : (ReadResult.count (.ok bytes) == (maxBufSize : Int)) = false := by
    rw [beq_eq_false_iff_ne]
    show (bytes.length : Int) ≠ maxBufSize
    omega
  have hcount : ¬ ReadResult.count (.ok bytes) > maxBufSize := by
    show ¬ (bytes.length : Int) > maxBufSize
    omega
  unfold readnFdTurn
  simp only [hcount, if_false, sizeT_first_read hroom hsize, if_true, store_start, htext, hcat,
    hstop, Option.bind_eq_bind, Option.bind_some, Option.pure_def]
  simp [readnFdStart, ReadResult.count]

/-- A first read that fills the chunk buffer leaves `strcat` without a
terminator. -/
theorem readnFdTurn_start_full (hnul : 0 ∉ bytes) (hlen : bytes.length = maxBufSize)
    (hroom : bytes.length < nData) (hsize : nData ≤ 2 ^ 32) :
    readnFdTurn nData (readnFdStart nData) (.ok bytes) = none := by
  have htext : cstr (padded bytes maxBufSize) = none := by
    apply cstr_eq_none
    simp [padded, hlen, hnul]
  unfold readnFdTurn
  split
  · rfl
  · simp only [sizeT_first_read hroom hsize, if_true, store_start, htext,
      Option.bind_eq_bind, Option.bind_none]

end FirstRead

/-- Size of the answer buffer of `write_pipe_or_sock`: `MAX_BUF_SIZE * 4`. -/
def answerBufSize : Nat := maxBufSize * 4

/-! ## Staying in the buffers

`strcat` leaves its buffers only where the chunk buffer holds no NUL.  The answer
buffer has room for the four strings that can be joined to it. -/

/-- Whenever a read is joined to the answer, there is a NUL in the chunk buffer. -/
def ChunksTerminated (totalByte : Int) (szBuf : List UInt8) : List ReadResult → Prop
  | [] => True
  | r :: reads =>
    sizeT (totalByte + r.count) < answerBufSize →
      0 ∈ r.store szBuf ∧ (r.count = maxBufSize →
        ChunksTerminated (totalByte + r.count) (r.store szBuf) reads)

/-- The answer is joined inside the buffers. -/
def ReadsTerminated (reads : List ReadResult) : Prop :=
  ChunksTerminated 0 (List.replicate maxBufSize 0) reads

/-- No `read` takes more than it is asked for, and there are as many of them as the
loop calls: one that is not full, or four. -/
structure ReadsServed (reads : List ReadResult) : Prop where
  fits : ∀ r ∈ reads, r.count ≤ maxBufSize
  enough : 4 ≤ reads.length ∨ ∃ r ∈ reads, r.count ≠ maxBufSize

/-- The locals behind `n` full reads. -/
structure ReadnFdState.Joined (st : ReadnFdState) (n : Nat) : Prop where
  total : st.totalByte = n * 1024
  chunk : st.szBuf.length = maxBufSize
  text : ∃ d, st.szData = padded d answerBufSize ∧ 0 ∉ d ∧ d.length ≤ n * 1023

theorem ReadResult.neg_one_le_count (r : ReadResult) : -1 ≤ r.count := by
  cases r with
  | ok bytes => show (-1 : Int) ≤ bytes.length; omega
  | error e => exact Int.le_refl _

theorem ReadResult.length_store {r : ReadResult} {szBuf : List UInt8}
    (hlen : szBuf.length = maxBufSize) (hr : r.count ≤ maxBufSize) :
    (r.store szBuf).length = maxBufSize := by
  cases r with
  | error e => exact hlen
  | ok bytes =>
    have hle : (bytes.length : Int) ≤ maxBufSize := hr
    rw [ReadResult.store, List.length_append, List.length_drop, hlen]
    omega

/-- The string in the chunk buffer is shorter than the buffer. -/
theorem cstr_chunk {szBuf : List UInt8} (hlen : szBuf.length = maxBufSize) (hnul : 0 ∈ szBuf) :
    ∃ text, cstr szBuf = some text ∧ 0 ∉ text ∧ text.length ≤ maxBufSize - 1 := by
  refine ⟨_, if_pos hnul, fun hmem => ?_, ?_⟩
  · exact absurd (List.mem_takeWhile_imp hmem) (by simp)
  · have hfront := List.takeWhile_prefix (l := szBuf) (· ≠ 0)
    have hle := hfront.length_le
    have hne : (szBuf.takeWhile (· ≠ 0)).length ≠ szBuf.length := by
      intro heq
      have hall := List.takeWhile_eq_self_iff.mp (hfront.eq_of_length heq)
      exact absurd (hall 0 hnul) (by simp)
    omega

/-- A turn stays in the buffers exactly where its chunk is terminated, and another
one follows behind a full read. -/
theorem readnFdTurn_joined {st : ReadnFdState} {n : Nat} (hst : st.Joined n) (hn : n ≤ 3)
    {r : ReadResult} (hr : r.count ≤ maxBufSize) :
    (readnFdTurn answerBufSize st r = none ∧
        sizeT (st.totalByte + r.count) < answerBufSize ∧ 0 ∉ r.store st.szBuf) ∨
      ∃ st' more, readnFdTurn answerBufSize st r = some (st', more) ∧
        (sizeT (st.totalByte + r.count) < answerBufSize → 0 ∈ r.store st.szBuf) ∧
        (more = true ↔ sizeT (st.totalByte + r.count) < answerBufSize ∧ r.count = maxBufSize) ∧
        (more = true → st'.Joined (n + 1) ∧ st'.szBuf = r.store st.szBuf ∧
          st'.totalByte = st.totalByte + r.count) := by
  have hmax : maxBufSize = 1024 := rfl
  have hbuf : answerBufSize = 4096 := rfl
  obtain ⟨htotal, hchunk, d, hdata, hd, hlen⟩ := hst
  have hstore := ReadResult.length_store hchunk hr
  unfold readnFdTurn
  rw [if_neg (by omega)]
  dsimp only
  by_cases hroom : sizeT (st.totalByte + r.count) < answerBufSize
  · rw [if_pos hroom]
    by_cases hnul : 0 ∈ r.store st.szBuf
    · obtain ⟨text, htext, hfree, hshort⟩ := cstr_chunk hstore hnul
      have hfit : d.length + text.length < answerBufSize := by omega
      have hcat := strcat_padded hd htext hfit
      right
      rw [htext, hdata, hcat]
      refine ⟨_, _, rfl, fun _ => hnul, by simp [hroom], fun hmore => ?_⟩
      have hfull : r.count = maxBufSize := by simpa using hmore
      refine ⟨⟨?_, hstore, d ++ text, rfl, ?_, ?_⟩, rfl, rfl⟩
      · dsimp only
        rw [htotal, hfull]
        push_cast
        omega
      · simp [hd, hfree]
      · rw [List.length_append]
        omega
    · left
      rw [cstr_eq_none hnul]
      exact ⟨rfl, hroom, hnul⟩
  · right
    rw [if_neg hroom]
    refine ⟨_, _, rfl, fun h => absurd h hroom, ?_, fun h => absurd h (by simp)⟩
    simp [hroom]

/-- **The loop stays in its buffers exactly where every chunk that is joined is
terminated.** -/
theorem readnFdLoop_isSome_iff (reads : List ReadResult) :
    ∀ {st : ReadnFdState} {n : Nat}, st.Joined n → n ≤ 3 → (∀ r ∈ reads, r.count ≤ maxBufSize) →
      (4 ≤ n + reads.length ∨ ∃ r ∈ reads, r.count ≠ maxBufSize) →
      ((readnFdLoop answerBufSize st reads).isSome = true ↔
        ChunksTerminated st.totalByte st.szBuf reads) := by
  have hmax : maxBufSize = 1024 := rfl
  have hbuf : answerBufSize = 4096 := rfl
  induction reads with
  | nil =>
    intro st n _ hn _ henough
    rcases henough with hfour | ⟨r, hr, -⟩
    · exact absurd hfour (by rw [List.length_nil]; omega)
    · exact absurd hr List.not_mem_nil
  | cons r reads ih =>
    intro st n hst hn hfits henough
    obtain ⟨hr, hreads⟩ := List.forall_mem_cons.mp hfits
    rw [readnFdLoop, ChunksTerminated]
    rcases readnFdTurn_joined hst hn hr with ⟨hturn, hroom, hnul⟩ |
        ⟨st', more, hturn, hnul, hmore, hnext⟩
    · rw [hturn]
      exact ⟨fun h => absurd h (by simp), fun h => absurd (h hroom).1 hnul⟩
    · rw [hturn]
      cases more with
      | false =>
        refine ⟨fun _ hroom => ⟨hnul hroom, fun hfull => ?_⟩, fun _ => rfl⟩
        exact absurd (hmore.mpr ⟨hroom, hfull⟩) (by simp)
      | true =>
        obtain ⟨hroom, hfull⟩ := hmore.mp rfl
        obtain ⟨hjoined, hbuf', htotal'⟩ := hnext rfl
        -- A fourth full read would fill the answer buffer.
        have hthree : n + 1 ≤ 3 := by
          rw [hst.total, hfull, sizeT_of_nonneg (by omega) (by omega)] at hroom
          omega
        have hmoreReads : 4 ≤ n + 1 + reads.length ∨ ∃ r ∈ reads, r.count ≠ maxBufSize := by
          rcases henough with hfour | ⟨r', hr', hshort⟩
          · rw [List.length_cons] at hfour
            exact Or.inl (by omega)
          · rcases List.mem_cons.mp hr' with rfl | hr'
            · exact absurd hfull hshort
            · exact Or.inr ⟨r', hr', hshort⟩
        dsimp only
        rw [ih hjoined hthree hreads hmoreReads, htotal', hbuf']
        exact ⟨fun h _ => ⟨hnul hroom, fun _ => h⟩, fun h => (h hroom).2 hfull⟩

theorem readnFdStart_joined : (readnFdStart answerBufSize).Joined 0 where
  total := rfl
  chunk := List.length_replicate
  text := ⟨[], (padded_nil answerBufSize).symm, List.not_mem_nil, Nat.le_refl _⟩

/-- `readn_fd` stays in its buffers exactly where every chunk that is joined is
terminated. -/
theorem readnFd_isSome_iff {fdRead : Nat} (hfd : fdRead ≠ 0) (szData : List UInt8) {retval : Int}
    {reads : List ReadResult} (hserved : 0 < retval → ReadsServed reads) :
    (readnFd fdRead szData answerBufSize retval reads).isSome = true ↔
      (0 < retval → ReadsTerminated reads) := by
  by_cases hready : 0 < retval
  · have hloop := readnFdLoop_isSome_iff reads readnFdStart_joined (by omega)
      (hserved hready).fits ((hserved hready).enough.imp_left fun h => by omega)
    rw [readnFd_ready hfd szData hready, Option.isSome_map, hloop]
    exact ⟨fun h _ => h, fun h => h hready⟩
  · have hcall : (readnFd fdRead szData answerBufSize retval reads).isSome = true := by
      unfold readnFd
      rw [if_neg hfd]
      dsimp only
      rw [if_neg hready]
      rfl
    exact ⟨fun _ h => absurd h hready, fun _ => hcall⟩

/-- A read that does not fill the chunk buffer ends the call. -/
theorem readnFd_short {fdRead : Nat} (hfd : fdRead ≠ 0) (szData : List UInt8) {retval : Int}
    (hready : 0 < retval) {bytes : List UInt8} (hnul : 0 ∉ bytes)
    (hlen : bytes.length < maxBufSize) (rest : List ReadResult) :
    readnFd fdRead szData answerBufSize retval (.ok bytes :: rest) =
      some { ret := bytes.length, szData := padded bytes answerBufSize, appended := [bytes],
             rest } := by
  have hroom : bytes.length < answerBufSize := Nat.lt_trans hlen (by decide)
  rw [readnFd_ready hfd szData hready, readnFdLoop,
    readnFdTurn_start_short hnul hlen hroom (by decide)]
  rfl

/-! ## Reassembly of an answer -/

/-- The call for an answer whose bytes arrive as the successive reads `chunks`.
`select` times out when there is nothing to read. -/
def readAnswer (fdRead : Nat) (szData : List UInt8) (chunks : List (List UInt8)) :
    Option ReadnFd :=
  readnFd fdRead szData answerBufSize (if chunks = [] then 0 else 1) (chunks.map .ok)

/-- The call returns the length of the whole answer, leaves exactly the answer
and a terminator in the buffer, and every `strcat` found a terminator and
appended the bytes of its own read. -/
def Reassembles (out : Option ReadnFd) (chunks : List (List UInt8)) : Prop :=
  ∃ o, out = some o ∧ o.ret = chunks.flatten.length ∧
    cstr o.szData = some chunks.flatten ∧ o.appended = chunks

/-- **An answer is reassembled exactly when one short read brings all of it.**
With a second read the loop has already stopped; with a full first read `strcat`
finds no terminator. -/
theorem readnFd_reassembles_iff {fdRead : Nat} (hfd : fdRead ≠ 0) (szData : List UInt8)
    {chunks : List (List UInt8)} (hnul : 0 ∉ chunks.flatten)
    (hlen : ∀ chunk ∈ chunks, 1 ≤ chunk.length ∧ chunk.length ≤ maxBufSize)
    (hfit : chunks.flatten.length < answerBufSize) :
    Reassembles (readAnswer fdRead szData chunks) chunks ↔
      chunks.length ≤ 1 ∧ chunks.flatten.length < maxBufSize := by
  have hbuf : answerBufSize = 4096 := rfl
  have hmax : maxBufSize = 1024 := rfl
  cases chunks with
  | nil =>
    have hcall : readAnswer fdRead szData [] =
        some { ret := 0, szData := List.replicate answerBufSize 0, appended := [],
               rest := [] } := by
      simp [readAnswer, readnFd, hfd, readnFdStart]
    have hempty : cstr (List.replicate answerBufSize 0) = some [] := by
      rw [← padded_nil]
      exact cstr_padded (by simp) (by rw [List.length_nil]; omega)
    constructor
    · intro _
      exact ⟨by simp, by simp [hmax]⟩
    · intro _
      exact ⟨_, hcall, by simp, hempty, rfl⟩
  | cons chunk more =>
    obtain ⟨hpos, hle⟩ := hlen chunk List.mem_cons_self
    have hnulHead : 0 ∉ chunk := fun h => hnul (by simp [h])
    have hroom : chunk.length < answerBufSize := by
      rw [List.flatten_cons, List.length_append] at hfit
      omega
    have hcall : readAnswer fdRead szData (chunk :: more) =
        readnFd fdRead szData answerBufSize 1 (.ok chunk :: more.map .ok) := by
      rw [readAnswer, if_neg (by simp), List.map_cons]
    by_cases hfull : chunk.length = maxBufSize
    · have hnone : readAnswer fdRead szData (chunk :: more) = none := by
        rw [hcall, readnFd_ready hfd _ (by decide), readnFdLoop,
          readnFdTurn_start_full hnulHead hfull hroom (by omega)]
        rfl
      constructor
      · rintro ⟨o, ho, -⟩
        rw [hnone] at ho
        exact absurd ho (by simp)
      · rintro ⟨-, hshort⟩
        rw [List.flatten_cons, List.length_append] at hshort
        omega
    · have hshort : chunk.length < maxBufSize := by omega
      have hsome : readAnswer fdRead szData (chunk :: more) =
          some { ret := chunk.length, szData := padded chunk answerBufSize,
                 appended := [chunk], rest := more.map .ok } :=
        hcall.trans (readnFd_short hfd szData (by decide) hnulHead hshort _)
      constructor
      · rintro ⟨o, ho, hret, -, happended⟩
        rw [hsome, Option.some.injEq] at ho
        subst ho
        have hmore : more = [] := by simpa using happended.symm
        subst hmore
        exact ⟨by simp, by simp; omega⟩
      · rintro ⟨hone, -⟩
        have hmore : more = [] := by
          rw [List.length_cons] at hone
          exact List.length_eq_zero_iff.mp (by omega)
        subst hmore
        refine ⟨_, hsome, by simp, ?_, rfl⟩
        rw [List.flatten_cons, List.flatten_nil, List.append_nil]
        exact cstr_padded hnulHead hroom

theorem readnFd_reassembles_ok :
    Reassembles (readAnswer 7 [] [[79, 75]]) [[79, 75]] ↔
      [[(79 : UInt8), 75]].length ≤ 1 ∧ [[(79 : UInt8), 75]].flatten.length < maxBufSize :=
  readnFd_reassembles_iff (by decide) [] (by decide) (by decide) (by decide)

/-- Two bytes that arrive in two reads: the second is left in the socket. -/
theorem readnFd_two_reads :
    ¬ ∀ (fdRead : Nat) (szData : List UInt8) (chunks : List (List UInt8)), fdRead ≠ 0 →
      0 ∉ chunks.flatten →
      (∀ chunk ∈ chunks, 1 ≤ chunk.length ∧ chunk.length ≤ maxBufSize) →
      chunks.flatten.length < answerBufSize →
      Reassembles (readAnswer fdRead szData chunks) chunks := by
  intro h
  obtain ⟨o, ho, -, -, happended⟩ :=
    h 7 [] [[79], [75]] (by decide) (by decide) (by decide) (by decide)
  have hrun : (readAnswer 7 [] [[79], [75]]).map (·.appended) = some [[79]] := by
    decide +kernel
  rw [ho, Option.map_some, happended] at hrun
  exact absurd hrun (by decide)

end WowProxy
