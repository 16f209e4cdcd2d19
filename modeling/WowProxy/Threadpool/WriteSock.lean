/-
  Threadpool/WriteSock.lean --- `write_sock_func` of `aidsock.c`: the reply to a
  client, and which descriptors it touches.

  The reply goes through `writen_fd`, whose write loop also serves the
  connection to the game server: when a probe or a write says that the peer has
  closed, the loop reconnects to the game server and goes on writing there.
-/
import WowProxy.Common.CJson
import WowProxy.Common.SoapSocket
import WowProxy.Threadpool.Frame

set_option autoImplicit false

namespace WowProxy

/-! ## The reply -/

/-- `sizeof(buf)` of `write_sock_func`: `MAX_BUF_SIZE * 4`. -/
def replyBufSize : Nat := maxBufSize * 4

/-- The frame `write_sock_func` builds in `buf`: `some none` where it gives up,
and no value where it would leave `buf`. -/
def replyFrame (isOpOk : Bool) (msg : List UInt8) : Option (Option (List UInt8)) :=
  let jsonStr := printReply isOpOk msg
  let size := jsonStr.length
  if size > replyBufSize then some none
  else
    match crcData (some jsonStr) size (replyBufSize - headSize) with
    | none => none
    | some (len, body) =>
      if len = -1 then some none
      -- A length beyond the header leaves the zeroes `buf` starts with.
      else some (some ((convertIntToHex len.toNat).getD [0, 0] ++ body))

/-- What a call of `write_sock_func` leaves behind. -/
structure WriteSock where
  /-- the frame handed to `writen_fd`, and what that returned -/
  reply : Option (List UInt8 × Int)
  thread : Thread
  /-- rounds the call did not use -/
  rest : List Round

/-- `write_sock_func` for the client descriptor `clientFd`. -/
def writeSockFunc (clientFd : Nat) (isOpOk : Bool) (msg : List UInt8) (t : Thread)
    (rounds : List Round) : Option WriteSock :=
  match replyFrame isOpOk msg with
  | none => none
  | some none => some { reply := none, thread := t, rest := rounds }
  | some (some frame) =>
    (writenFd clientFd frame t rounds).map fun w =>
      { reply := some (frame, w.ret), thread := w.thread, rest := w.rest }

theorem writeSockFunc_after (clientFd : Nat) (isOpOk : Bool) (msg : List UInt8) (t : Thread)
    (io : List Io) (rounds : List Round) :
    writeSockFunc clientFd isOpOk msg (t.after io) rounds =
      (writeSockFunc clientFd isOpOk msg t rounds).map fun w =>
        { w with thread := w.thread.after io } := by
  unfold writeSockFunc
  split
  · rfl
  · rfl
  · rename_i frame hframe
    unfold writenFd
    rw [writenFdLoop_after]
    cases writenFdLoop clientFd frame.length clientFd frame t rounds <;> rfl

/-! ## Staying on the client -/

/-- An effect that a reply may have: bytes for the client, and nothing that
closes a descriptor. -/
def Io.onClient (clientFd : Nat) : Io → Prop
  | .opened _ => True
  | .closed _ => False
  | .wrote fd _ => fd = clientFd

/-- Between `t` and `t'`, all bytes went to the client and the connection to the
game server is the same. -/
def StaysOnClient (clientFd : Nat) (t t' : Thread) : Prop :=
  ∃ new, t'.io = t.io ++ new ∧ (∀ e ∈ new, e.onClient clientFd) ∧ t'.td = t.td

/-- The results of a round leave the connection to the game server alone: no
reconnection is tried, or there is none to lose and none is made. -/
def Round.Quiet (clientFd td : Nat) (r : Round) : Prop :=
  if isSockClosedByPeer clientFd r.probe then td = 0 ∧ r.reset.connects = false
  else r.write = .error .epipe → td = 0 ∧ r.again.connects = false

theorem StaysOnClient.refl (clientFd : Nat) (t : Thread) : StaysOnClient clientFd t t :=
  ⟨[], by simp, by simp, rfl⟩

theorem StaysOnClient.trans {clientFd : Nat} {t t' t'' : Thread}
    (first : StaysOnClient clientFd t t') (second : StaysOnClient clientFd t' t'') :
    StaysOnClient clientFd t t'' := by
  obtain ⟨new, hio, hnew, htd⟩ := first
  obtain ⟨new', hio', hnew', htd'⟩ := second
  refine ⟨new ++ new', by rw [hio', hio, List.append_assoc], ?_, by rw [htd', htd]⟩
  intro e he
  rcases List.mem_append.mp he with he | he
  · exact hnew e he
  · exact hnew' e he

theorem StaysOnClient.wrote (clientFd : Nat) (t : Thread) (bytes : List UInt8) :
    StaysOnClient clientFd t (t.log (.wrote clientFd bytes)) :=
  ⟨[.wrote clientFd bytes], rfl, by simp [Io.onClient], rfl⟩

/-! ## Threads only grow -/

/-- A thread with a connection keeps it or has closed something. -/
def Thread.Grows (t t' : Thread) : Prop :=
  ∃ new, t'.io = t.io ++ new ∧ (t.td ≠ 0 → t'.td = t.td ∨ ∃ fd, .closed fd ∈ new)

namespace Thread.Grows

theorem refl (t : Thread) : Thread.Grows t t := ⟨[], by simp, fun _ => Or.inl rfl⟩

theorem trans {t t' t'' : Thread} (first : Thread.Grows t t') (second : Thread.Grows t' t'') :
    Thread.Grows t t'' := by
  obtain ⟨new, hio, htd⟩ := first
  obtain ⟨new', hio', htd'⟩ := second
  refine ⟨new ++ new', by rw [hio', hio, List.append_assoc], ?_⟩
  intro hne
  rcases htd hne with hkept | ⟨fd, hfd⟩
  · rcases htd' (by rw [hkept]; exact hne) with hkept' | ⟨fd, hfd⟩
    · exact Or.inl (by rw [hkept', hkept])
    · exact Or.inr ⟨fd, List.mem_append_right _ hfd⟩
  · exact Or.inr ⟨fd, List.mem_append_left _ hfd⟩

theorem log (t : Thread) (e : Io) : Thread.Grows t (t.log e) :=
  ⟨[e], rfl, fun _ => Or.inl rfl⟩

theorem reset (t : Thread) (a : Attempt) :
    Thread.Grows t (resetThreadLocalSoapSocket t a).2 := by
  have hdropped : t.td ≠ 0 → .closed t.td ∈ t.dropped := by
    intro hne
    rw [Thread.dropped, if_pos (by omega)]
    exact List.mem_singleton_self _
  cases hconnects : a.connects with
  | true =>
    obtain ⟨fd, hreset⟩ := reset_of_connects hconnects t
    rw [hreset]
    exact ⟨t.dropped ++ [.opened (fd + 1)], by rw [List.append_assoc],
      fun hne => Or.inr ⟨t.td, List.mem_append_left _ (hdropped hne)⟩⟩
  | false =>
    obtain ⟨opens, hreset⟩ := reset_of_not_connects hconnects t
    rw [hreset]
    exact ⟨t.dropped ++ opens.map .opened, by rw [List.append_assoc],
      fun hne => Or.inr ⟨t.td, List.mem_append_left _ (hdropped hne)⟩⟩

end Thread.Grows

/-- The thread at the end of a turn. -/
def Turn.thread : Turn → Thread
  | .stop _ t => t
  | .next _ _ t => t

theorem writenFdWrite_grows {fd : Nat} {ptr : List UInt8} {t : Thread} {r : Round}
    {turn : Turn} (h : writenFdWrite fd ptr t r = some turn) : t.Grows turn.thread := by
  unfold writenFdWrite at h
  split at h
  · obtain rfl := Option.some.inj h
    exact .refl t
  · split at h
    · obtain rfl := Option.some.inj h
      exact .log t _
    · exact absurd h (by simp)
  · obtain rfl := Option.some.inj h
    exact .refl t
  · have hreset := Thread.Grows.reset t r.again
    split at h <;> rename_i heq <;> obtain rfl := Option.some.inj h <;> rwa [heq] at hreset
  · obtain rfl := Option.some.inj h
    exact .refl t

theorem writenFdTurn_grows {fd : Nat} {ptr : List UInt8} {t : Thread} {r : Round}
    {turn : Turn} (h : writenFdTurn fd ptr t r = some turn) : t.Grows turn.thread := by
  unfold writenFdTurn at h
  split at h
  · have hreset := Thread.Grows.reset t r.reset
    split at h <;> rename_i heq <;> rw [heq] at hreset
    · obtain rfl := Option.some.inj h
      exact hreset
    · exact hreset.trans (writenFdWrite_grows h)
  · exact writenFdWrite_grows h

theorem writenFdLoop_grows {pfd n : Nat} (rounds : List Round) :
    ∀ {fd : Nat} {ptr : List UInt8} {t : Thread} {out : WritenFd},
      writenFdLoop pfd n fd ptr t rounds = some out → t.Grows out.thread := by
  induction rounds with
  | nil =>
    intro fd ptr t out h
    cases ptr with
    | nil => obtain rfl := Option.some.inj h; exact .refl t
    | cons b ptr => exact absurd h (by simp [writenFdLoop])
  | cons r rounds ih =>
    intro fd ptr t out h
    cases ptr with
    | nil => obtain rfl := Option.some.inj h; exact .refl t
    | cons b ptr =>
      rw [writenFdLoop] at h
      split at h
      · exact absurd h (by simp)
      · rename_i ret t' hturn
        obtain rfl := Option.some.inj h
        exact writenFdTurn_grows hturn
      · rename_i fd' ptr' t' hturn
        exact (writenFdTurn_grows hturn).trans (ih h)

theorem StaysOnClient.td_eq {clientFd : Nat} {t t' : Thread}
    (h : StaysOnClient clientFd t t') : t'.td = t.td := by
  obtain ⟨new, -, -, htd⟩ := h
  exact htd

/-- The later part of a stretch that stays on the client. -/
theorem StaysOnClient.right {clientFd : Nat} {t t' t'' : Thread}
    (first : StaysOnClient clientFd t t') (all : StaysOnClient clientFd t t'')
    (hgrows : t'.Grows t'') : StaysOnClient clientFd t' t'' := by
  obtain ⟨new, hio, -, htd⟩ := first
  obtain ⟨new', hio', hnew', htd'⟩ := all
  obtain ⟨later, hlater, -⟩ := hgrows
  have hsplit : new' = new ++ later := by
    rw [hlater, hio, List.append_assoc] at hio'
    exact (List.append_cancel_left hio').symm
  refine ⟨later, hlater, ?_, by rw [htd', htd]⟩
  intro e he
  exact hnew' e (by rw [hsplit]; exact List.mem_append_right _ he)

/-! ## One turn -/

/-- What a reconnection adds to the record: the loss of the connection, if there
was one, and then the attempt. -/
theorem reset_io (t : Thread) (a : Attempt) :
    ∃ more, (resetThreadLocalSoapSocket t a).2.io = t.io ++ (t.dropped ++ more) := by
  cases hconnects : a.connects with
  | true =>
    obtain ⟨fd, hreset⟩ := reset_of_connects hconnects t
    exact ⟨[.opened (fd + 1)], by rw [hreset, List.append_assoc]⟩
  | false =>
    obtain ⟨opens, hreset⟩ := reset_of_not_connects hconnects t
    exact ⟨opens.map .opened, by rw [hreset, List.append_assoc]⟩

/-- A reconnection shows in every later state, unless there was no connection and
none was made. -/
theorem not_staysOnClient_of_reset {clientFd : Nat} {t t' : Thread} {a : Attempt}
    (hreset : ¬ (t.td = 0 ∧ a.connects = false))
    (hgrows : (resetThreadLocalSoapSocket t a).2.Grows t') : ¬ StaysOnClient clientFd t t' := by
  rintro ⟨new, hio, hnew, htd⟩
  obtain ⟨later, hlater, hkept⟩ := hgrows
  obtain ⟨more, hmore⟩ := reset_io t a
  have hall : new = t.dropped ++ more ++ later := by
    rw [hlater, hmore, List.append_assoc] at hio
    exact (List.append_cancel_left hio).symm
  have hopen : ∀ fd, .closed fd ∉ new := fun fd hfd => hnew _ hfd
  by_cases hzero : t.td = 0
  · -- A new connection stays, or something is closed later.
    have hconnects : a.connects = true := by
      rw [← Bool.not_eq_false]
      exact fun h => hreset ⟨hzero, h⟩
    obtain ⟨fd, hfd⟩ := reset_of_connects hconnects t
    rw [hfd] at hkept
    rcases hkept (Nat.succ_ne_zero fd) with hsame | ⟨fd', hclosed⟩
    · rw [hsame, hzero] at htd
      exact Nat.succ_ne_zero fd htd
    · exact hopen fd' (by rw [hall]; exact List.mem_append_right _ hclosed)
  · -- The old connection was closed.
    have hdropped : t.dropped = [.closed t.td] := if_pos (by omega)
    exact hopen t.td (by rw [hall, hdropped]; simp)

/-- A reconnection without a connection to lose that makes none. -/
theorem reset_quiet {t : Thread} {a : Attempt} (hzero : t.td = 0)
    (hconnects : a.connects = false) (clientFd : Nat) :
    ∃ t', resetThreadLocalSoapSocket t a = (none, t') ∧ StaysOnClient clientFd t t' := by
  obtain ⟨opens, hreset⟩ := reset_of_not_connects hconnects t
  have hdropped : t.dropped = [] := if_neg (by omega)
  refine ⟨_, hreset, opens.map .opened, by rw [hdropped, List.append_nil], ?_, hzero.symm⟩
  intro e he
  obtain ⟨fd, -, rfl⟩ := List.mem_map.mp he
  trivial

/-- The turn keeps the reply on the client. -/
def Turn.OnClient (clientFd : Nat) (t : Thread) : Turn → Prop
  | .stop _ t' => StaysOnClient clientFd t t'
  | .next fd _ t' => fd = clientFd ∧ StaysOnClient clientFd t t'

/-- A quiet round keeps the reply on the client. -/
theorem writenFdTurn_quiet {clientFd : Nat} {ptr : List UInt8} {t : Thread} {r : Round}
    {turn : Turn} (hquiet : r.Quiet clientFd t.td)
    (h : writenFdTurn clientFd ptr t r = some turn) : turn.OnClient clientFd t := by
  unfold writenFdTurn at h
  unfold Round.Quiet at hquiet
  split at h
  · rename_i hclosed
    rw [if_pos hclosed] at hquiet
    obtain ⟨t', hreset, hstays⟩ := reset_quiet hquiet.1 hquiet.2 clientFd
    rw [hreset] at h
    obtain rfl := Option.some.inj h
    exact hstays
  · rename_i hopen
    rw [if_neg hopen] at hquiet
    unfold writenFdWrite at h
    split at h
    · obtain rfl := Option.some.inj h
      exact .refl clientFd t
    · split at h
      · obtain rfl := Option.some.inj h
        exact ⟨rfl, .wrote clientFd t _⟩
      · exact absurd h (by simp)
    · obtain rfl := Option.some.inj h
      exact ⟨rfl, .refl clientFd t⟩
    · rename_i hepipe
      obtain ⟨hzero, hconnects⟩ := hquiet hepipe
      obtain ⟨t', hreset, hstays⟩ := reset_quiet hzero hconnects clientFd
      rw [hreset] at h
      obtain rfl := Option.some.inj h
      exact hstays
    · obtain rfl := Option.some.inj h
      exact .refl clientFd t

/-- A round that is not quiet takes the reply away from the client for good. -/
theorem writenFdTurn_not_quiet {clientFd : Nat} {ptr : List UInt8} {t t' : Thread} {r : Round}
    {turn : Turn} (hquiet : ¬ r.Quiet clientFd t.td)
    (h : writenFdTurn clientFd ptr t r = some turn) (hgrows : turn.thread.Grows t') :
    ¬ StaysOnClient clientFd t t' := by
  unfold writenFdTurn at h
  unfold Round.Quiet at hquiet
  split at h
  · rename_i hclosed
    rw [if_pos hclosed] at hquiet
    apply not_staysOnClient_of_reset hquiet
    split at h <;> rename_i hreset <;> rw [hreset]
    · obtain rfl := Option.some.inj h
      exact hgrows
    · exact (writenFdWrite_grows h).trans hgrows
  · rename_i hopen
    rw [if_neg hopen] at hquiet
    obtain ⟨hepipe, hlost⟩ := Classical.not_imp.mp hquiet
    simp only [writenFdWrite, hepipe] at h
    apply not_staysOnClient_of_reset hlost
    split at h <;> rename_i hreset <;> rw [hreset] <;> obtain rfl := Option.some.inj h <;>
      exact hgrows

/-! ## One reply -/

/-- The write loop keeps the reply on the client as long as the rounds are
quiet. -/
theorem writenFdLoop_stays_iff {pfd n clientFd : Nat} (rounds : List Round) :
    ∀ {ptr : List UInt8} {t : Thread} {out : WritenFd},
      writenFdLoop pfd n clientFd ptr t rounds = some out → out.rest = [] →
      (StaysOnClient clientFd t out.thread ↔ ∀ r ∈ rounds, r.Quiet clientFd t.td) := by
  induction rounds with
  | nil =>
    intro ptr t out h hused
    cases ptr with
    | nil =>
      obtain rfl := Option.some.inj h
      exact ⟨fun _ => by simp, fun _ => .refl clientFd t⟩
    | cons b ptr => exact absurd h (by simp [writenFdLoop])
  | cons r rounds ih =>
    intro ptr t out h hused
    cases ptr with
    | nil =>
      obtain rfl := Option.some.inj h
      exact absurd hused (by simp)
    | cons b ptr =>
      rw [writenFdLoop] at h
      rw [List.forall_mem_cons]
      cases hturn : writenFdTurn clientFd (b :: ptr) t r with
      | none => rw [hturn] at h; exact absurd h (by simp)
      | some turn =>
        rw [hturn] at h
        by_cases hquiet : r.Quiet clientFd t.td
        · have hstays := writenFdTurn_quiet hquiet hturn
          cases turn with
          | stop ret t' =>
            obtain rfl := Option.some.inj h
            have hrounds : rounds = [] := hused
            subst hrounds
            exact ⟨fun _ => ⟨hquiet, by simp⟩, fun _ => hstays⟩
          | next fd ptr' t' =>
            obtain ⟨rfl, hstays⟩ := hstays
            have hlater := ih h hused
            rw [hstays.td_eq] at hlater
            constructor
            · intro hall
              exact ⟨hquiet, hlater.mp (hstays.right hall (writenFdLoop_grows rounds h))⟩
            · rintro ⟨-, hrounds⟩
              exact hstays.trans (hlater.mpr hrounds)
        · have hgrows : turn.thread.Grows out.thread := by
            cases turn with
            | stop ret t' => obtain rfl := Option.some.inj h; exact .refl t'
            | next fd ptr' t' => exact writenFdLoop_grows rounds h
          constructor
          · intro hall
            exact absurd hall (writenFdTurn_not_quiet hquiet hturn hgrows)
          · rintro ⟨hr, -⟩
            exact absurd hr hquiet

/-- **A reply stays on its client connection and leaves the connection to the
game server alone if and only if all rounds of the write loop are quiet.**  The
rounds are those the call used. -/
theorem writeSockFunc_stays_iff {clientFd : Nat} {isOpOk : Bool} {msg : List UInt8}
    {t : Thread} {rounds : List Round} {out : WriteSock}
    (hrun : writeSockFunc clientFd isOpOk msg t rounds = some out) (hused : out.rest = []) :
    StaysOnClient clientFd t out.thread ↔ ∀ r ∈ rounds, r.Quiet clientFd t.td := by
  unfold writeSockFunc at hrun
  split at hrun
  · exact absurd hrun (by simp)
  · obtain rfl := Option.some.inj hrun
    have hrounds : rounds = [] := hused
    subst hrounds
    exact ⟨fun _ => by simp, fun _ => .refl clientFd t⟩
  · obtain ⟨w, hw, rfl⟩ := Option.map_eq_some_iff.mp hrun
    exact writenFdLoop_stays_iff rounds hw hused

/-- A round in which the peer is there and the write takes `nwritten` bytes. -/
def Round.plain (nwritten : Nat) : Round :=
  { probe := .error .eagain, reset := ⟨.error .eintr, fun _ => false, fun _ => false⟩,
    write := .ok nwritten, again := ⟨.error .eintr, fun _ => false, fun _ => false⟩ }

theorem writeSockFunc_stays_done :
    ∃ out, writeSockFunc 9 true (ascii "done") ⟨5, []⟩ [.plain 42] = some out ∧
      (StaysOnClient 9 ⟨5, []⟩ out.thread ↔ ∀ r ∈ [Round.plain 42], r.Quiet 9 5) := by
  have hcall : (writeSockFunc 9 true (ascii "done") ⟨5, []⟩ [.plain 42]).map
      (·.rest.isEmpty) = some true := by decide +kernel
  obtain ⟨out, hrun, hused⟩ := Option.map_eq_some_iff.mp hcall
  exact ⟨out, hrun, writeSockFunc_stays_iff hrun (List.isEmpty_iff.mp hused)⟩

/-- A round in which the client has closed and the game server answers. -/
def Round.clientGone (socket nwritten : Nat) : Round :=
  { probe := .ok 0, reset := ⟨.ok socket, fun _ => true, fun _ => true⟩,
    write := .ok nwritten, again := ⟨.error .eintr, fun _ => false, fun _ => false⟩ }

/-- The client closes before its reply is written: the reply goes to the game
server over a new connection. -/
theorem reply_reaches_game_server :
    ¬ ∀ (clientFd : Nat) (isOpOk : Bool) (msg : List UInt8) (t : Thread) (rounds : List Round)
        (out : WriteSock),
      writeSockFunc clientFd isOpOk msg t rounds = some out → out.rest = [] →
      StaysOnClient clientFd t out.thread := by
  intro h
  have hcall : (writeSockFunc 9 true (ascii "done") ⟨5, []⟩ [.clientGone 7 42]).map
      (fun out => (out.rest.isEmpty, out.thread.td)) = some (true, 7) := by decide +kernel
  obtain ⟨out, hrun, hout⟩ := Option.map_eq_some_iff.mp hcall
  simp only [Prod.mk.injEq, List.isEmpty_iff] at hout
  have htd := (h 9 true (ascii "done") ⟨5, []⟩ [.clientGone 7 42] out hrun hout.1).td_eq
  rw [hout.2] at htd
  exact absurd htd (by decide)

end WowProxy
