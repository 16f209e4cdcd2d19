/-
  Threadpool/Correlation.lean --- which answer the reply to a command carries.

  Answers are matched to commands by their position on the connection alone.
  What is on the connection belongs to the command that is being executed as long
  as nothing was left on it when the command began; `select` gives up after two
  seconds and leaves the answer to come, and the next command finds it.
-/
import WowProxy.Threadpool.Backend
import WowProxy.Xml.RequestLength

set_option autoImplicit false

namespace WowProxy

open WowProxy.Lib.CString WowProxy.Lib.Runs

/-- The frame a call of `write_sock_func` hands to the write loop. -/
theorem writeSockFunc_frame {clientFd : Nat} {isOpOk : Bool} {msg : List UInt8} {t : Thread}
    {rounds : List Round} {w : WriteSock} {frame : List UInt8} {ret : Int}
    (h : writeSockFunc clientFd isOpOk msg t rounds = some w)
    (hreply : w.reply = some (frame, ret)) : replyFrame isOpOk msg = some (some frame) := by
  unfold writeSockFunc at h
  split at h
  · exact absurd h (by simp)
  · obtain rfl := Option.some.inj h
    exact absurd hreply (by simp)
  · rename_i frame' hframe
    obtain ⟨w', -, rfl⟩ := Option.map_eq_some_iff.mp h
    simp only [Option.some.injEq, Prod.mk.injEq] at hreply
    rw [hframe, hreply.1]

namespace Backend

/-! ## What is on the connection -/

/-- Nothing is on the connection, and no answer is to come. -/
def Link.Clean (link : Link) : Prop :=
  link.unanswered = [] ∧ link.flight = [] ∧ link.rx = []

/-- The last answer has arrived, is short and free of NUL bytes, and `n` bytes are
all of it. -/
def Link.Arrived (link : Link) (n : Nat) : Prop :=
  link.unanswered = [] ∧ link.flight = [] ∧ n = link.rx.length ∧ n < maxBufSize ∧ 0 ∉ link.rx

instance (link : Link) : Decidable link.Clean := inferInstanceAs (Decidable (_ ∧ _ ∧ _))

instance (link : Link) (n : Nat) : Decidable (link.Arrived n) :=
  inferInstanceAs (Decidable (_ ∧ _ ∧ _ ∧ _ ∧ _))

theorem Link.Clean.apply {link : Link} (h : link.Clean) (e : Io) : (link.apply e).Clean := by
  cases e with
  | opened fd => exact ⟨rfl, rfl, rfl⟩
  | closed fd =>
    show (if fd = link.fd then fresh 0 else link).Clean
    split
    · exact ⟨rfl, rfl, rfl⟩
    · exact h
  | wrote fd bytes =>
    show (if fd = link.fd then { link with begun := true } else link).Clean
    split <;> exact h

/-- A clean connection stays clean whatever the thread does to it. -/
theorem Link.Clean.foldl {link : Link} (h : link.Clean) (io : List Io) :
    (io.foldl Link.apply link).Clean := by
  induction io generalizing link with
  | nil => exact h
  | cons e io ih => exact ih (h.apply e)

namespace Worker

/-- What is on the connection, and what is to come, is the answer to command
`k`. -/
def Awaits (w : Worker) (k : Nat) : Prop :=
  w.link.rx ++ w.link.flight = [] ∧ (w.link.unanswered = [] ∨ w.link.unanswered = [k]) ∨
    w.link.unanswered = [] ∧ (k, w.link.rx ++ w.link.flight) ∈ w.answers

/-- If the worker is about to read the answer to a command that needs a reply, then
it reads all of it. -/
def ReadsWhole (w : Worker) (n : Nat) : Pc → Prop
  | .reading _ c _ => c.resp = true → w.link.Arrived n
  | _ => True

/-- A command that needs a reply begins on a clean connection or a new one, and its
answer has arrived when it is read. -/
def Careful (w : Worker) : Label → Prop
  | .command c _ => c.resp = true → w.td > 0 → w.link.Clean
  | .read n => w.ReadsWhole n w.pc
  | _ => True

instance (w : Worker) (n : Nat) : ∀ pc, Decidable (w.ReadsWhole n pc)
  | .reading _ _ _ => inferInstanceAs (Decidable (_ → _))
  | .idle | .writing _ _ _ _ | .waiting _ _ | .replying _ _ _ _ _ => isTrue trivial

instance (w : Worker) : ∀ a, Decidable (w.Careful a)
  | .command _ _ => inferInstanceAs (Decidable (_ → _ → _))
  | .read n => inferInstanceAs (Decidable (w.ReadsWhole n w.pc))
  | .write _ | .select _ | .readFails _ | .reply _ | .answer _ | .deliver _ | .close =>
    isTrue trivial

variable (sv : Service)

/-- The reply that carries the answer `a`. -/
def Carries (w : Worker) (k : Nat) (isOpOk : Bool) (msg : List UInt8) : Prop :=
  ∃ a, (k, a) ∈ w.answers ∧
    sv.answerReply a.length (padded a answerBufSize) = some (isOpOk, msg)

/-- Every reply frame with an answer is made of the whole answer of the server to
the command it is for. -/
def Correlated (w : Worker) : Prop :=
  ∀ r ∈ w.replies, r.answer = true → ∃ a, (r.command, a) ∈ w.answers ∧
    sv.answerFrame a.length (padded a answerBufSize) = some (some r.frame)

/-- Where a worker is with a command that needs a reply. -/
def InStep (w : Worker) : Pc → Prop
  | .idle => True
  | .writing _ c _ _ => c.resp = true → w.link.Clean
  | .waiting k c => c.resp = true → w.Awaits k
  | .reading k c st =>
    c.resp = true → st = readnFdStart answerBufSize ∧ w.Awaits k
  | .replying k _ answer isOpOk msg => answer = true → w.Carries sv k isOpOk msg

/-- The invariant of a worker. -/
structure WorkerInv (w : Worker) : Prop where
  in_step : w.InStep sv w.pc
  correlated : w.Correlated sv

section Steps

variable {sv} {w w' : Worker}

theorem WorkerInv.at_pc {pc : Pc} (h : w.WorkerInv sv) (hpc : w.pc = pc) : w.InStep sv pc :=
  hpc ▸ h.in_step

theorem WorkerInv.init : Worker.init.WorkerInv sv :=
  ⟨trivial, fun _ hr => absurd hr List.not_mem_nil⟩

/-- A step that answers and replies nothing. -/
theorem WorkerInv.move (h : w.WorkerInv sv) (hanswers : w'.answers = w.answers)
    (hreplies : w'.replies = w.replies) (hin : w'.InStep sv w'.pc) : w'.WorkerInv sv := by
  refine ⟨hin, ?_⟩
  intro r hr hanswer
  rw [hreplies] at hr
  rw [hanswers]
  exact h.correlated r hr hanswer

/-- The request of a command leaves an answer to come on a clean connection. -/
theorem awaits_of_clean {k : Nat} (h : w.link.Clean) :
    { w with link := w.link.request k }.Awaits k := by
  obtain ⟨hunanswered, hflight, hrx⟩ := h
  left
  unfold Link.request
  split
  · exact ⟨by simp [hrx, hflight], Or.inr (by simp [hunanswered])⟩
  · exact ⟨by simp [hrx, hflight], Or.inl hunanswered⟩

theorem WorkerInv.command {c : Call} {connect : Attempt} (h : w.WorkerInv sv)
    (hclean : c.resp = true → w.td > 0 → w.link.Clean) (hstep : w.command sv c connect = some w') :
    w'.WorkerInv sv := by
  unfold Worker.command at hstep
  dsimp only at hstep
  split at hstep
  · obtain rfl := Option.some.inj hstep
    exact h.move rfl rfl (fun hfalse => absurd hfalse (by simp))
  · rename_i fd t hmake
    split at hstep
    · exact absurd hstep (by simp)
    · obtain rfl := Option.some.inj hstep
      exact h.move rfl rfl (fun hfalse => absurd hfalse (by simp))
    · obtain rfl := Option.some.inj hstep
      refine h.move rfl rfl (fun hresp => ?_)
      show (t.io.foldl Link.apply w.link).Clean
      -- A cached connection is as it was, and a new one is clean.
      by_cases htd : w.td > 0
      · exact (hclean hresp htd).foldl t.io
      · have hzero : w.td = 0 := by omega
        rw [hzero] at hmake
        cases hconnects : connect.connects with
        | true =>
          obtain ⟨fd', hmake'⟩ := makeSoapSocket_of_connects hconnects []
          rw [hmake, Prod.mk.injEq] at hmake'
          rw [hmake'.2]
          exact ⟨rfl, rfl, rfl⟩
        | false =>
          have hfails := (makeSoapSocket_eq_zero_iff ⟨0, []⟩ connect).mpr ⟨rfl, hconnects⟩
          rw [hmake] at hfails
          exact absurd hfails (Nat.succ_ne_zero fd)

theorem WorkerInv.write {k : Nat} {c : Call} {fd : Nat} {ptr : List UInt8} {r : Round}
    (h : w.WorkerInv sv) (hpc : w.pc = .writing k c fd ptr)
    (hstep : w.write k c fd ptr r = some w') : w'.WorkerInv sv := by
  have hclean : c.resp = true → ∀ t, (w.behind t).link.Clean := by
    intro hresp t
    have hin := h.at_pc hpc
    exact (hin hresp).foldl t.io
  unfold Worker.write at hstep
  split at hstep
  · split at hstep
    · exact absurd hstep (by simp)
    · obtain rfl := Option.some.inj hstep
      exact h.move rfl rfl (fun hfalse => absurd hfalse (by simp))
    · rename_i t hturn
      obtain rfl := Option.some.inj hstep
      exact h.move rfl rfl (fun hresp => awaits_of_clean (w := w.behind t) (hclean hresp t))
    · rename_i t hturn
      obtain rfl := Option.some.inj hstep
      exact h.move rfl rfl (fun hresp => hclean hresp t)
  · exact absurd hstep (by simp)

theorem WorkerInv.select {k : Nat} {c : Call} {retval : Int} (h : w.WorkerInv sv)
    (hpc : w.pc = .waiting k c) (hstep : w.select k c retval = some w') : w'.WorkerInv sv := by
  have hin := h.at_pc hpc
  unfold Worker.select at hstep
  split at hstep
  · obtain rfl := Option.some.inj hstep
    exact h.move rfl rfl (fun hresp => ⟨rfl, hin hresp⟩)
  · split at hstep
    · exact absurd hstep (by simp)
    · obtain rfl := Option.some.inj hstep
      exact h.move rfl rfl trivial

/-- A command that needs no reply reads what it likes. -/
theorem WorkerInv.turn_quiet {k : Nat} {c : Call} {st : ReadnFdState} {r : ReadResult}
    (h : w.WorkerInv sv) (link : Link) (hresp : c.resp = false)
    (hstep : { w with link }.turn sv k c st r = some w') : w'.WorkerInv sv := by
  unfold Worker.turn at hstep
  split at hstep
  · exact absurd hstep (by simp)
  · obtain rfl := Option.some.inj hstep
    exact h.move rfl rfl (fun htrue => absurd (hresp.symm.trans htrue) (by simp))
  · unfold afterRead at hstep
    rw [if_neg (by simp [hresp])] at hstep
    obtain rfl := Option.some.inj hstep
    exact h.move rfl rfl trivial

/-- A failing first read ends the loop with nothing. -/
theorem turn_error {k : Nat} {c : Call} {e : Errno} :
    w.turn sv k c (readnFdStart answerBufSize) (.error e) = some { w with pc := .idle } := by
  have hturn : readnFdTurn answerBufSize (readnFdStart answerBufSize) (.error e) =
      some (readnFdStart answerBufSize, false) := rfl
  unfold Worker.turn
  rw [hturn]
  show w.afterRead sv k c _ = _
  unfold afterRead
  rw [if_neg]
  rintro ⟨-, hpos⟩
  exact absurd hpos (by decide)

/-- A whole answer is read in one turn, and the reply is made of it. -/
theorem WorkerInv.turn_whole {k n : Nat} {c : Call} (h : w.WorkerInv sv) (hawaits : w.Awaits k)
    (harrived : w.link.Arrived n)
    (hstep : { w with link := { w.link with rx := w.link.rx.drop n } }.turn sv k c
      (readnFdStart answerBufSize) (.ok (w.link.rx.take n)) = some w') : w'.WorkerInv sv := by
  obtain ⟨hunanswered, hflight, hn, hshort, hnul⟩ := harrived
  have hmax : maxBufSize = 1024 := rfl
  have hbuf : answerBufSize = 4096 := rfl
  have hall : w.link.rx.take n = w.link.rx := by rw [hn, List.take_length]
  rw [hall] at hstep
  unfold Worker.turn at hstep
  rw [readnFdTurn_start_short hnul (by omega) (by omega) (by omega)] at hstep
  change afterRead sv _ k c _ = some w' at hstep
  unfold afterRead at hstep
  dsimp only at hstep
  split at hstep
  · rename_i hpos
    obtain ⟨⟨isOpOk, msg⟩, hreply, rfl⟩ := Option.map_eq_some_iff.mp hstep
    refine h.move rfl rfl (fun _ => ⟨w.link.rx, ?_, hreply⟩)
    rcases hawaits with ⟨hnil, -⟩ | ⟨-, hanswer⟩
    · rw [hflight, List.append_nil] at hnil
      rw [hnil] at hpos
      exact absurd hpos.2 (by simp)
    · rw [hflight, List.append_nil] at hanswer
      exact hanswer
  · obtain rfl := Option.some.inj hstep
    exact h.move rfl rfl trivial

/-- The reply frame is made of what the reply carries. -/
theorem WorkerInv.reply {k : Nat} {c : Call} {answer isOpOk : Bool} {msg : List UInt8}
    {rounds : List Round} (h : w.WorkerInv sv) (hpc : w.pc = .replying k c answer isOpOk msg)
    (hstep : w.reply k c answer isOpOk msg rounds = some w') : w'.WorkerInv sv := by
  obtain ⟨out, hout, rfl⟩ := Option.map_eq_some_iff.mp hstep
  refine ⟨trivial, ?_⟩
  intro r hr hanswer
  rcases List.mem_append.mp hr with hold | hnew
  · exact h.correlated r hold hanswer
  · rw [Option.mem_toList, Option.map_eq_some_iff] at hnew
    obtain ⟨⟨frame, ret⟩, hreply, rfl⟩ := hnew
    have hin := h.at_pc hpc
    obtain ⟨a, ha, hmsg⟩ := hin hanswer
    refine ⟨a, ha, ?_⟩
    unfold Service.answerFrame
    rw [hmsg]
    exact writeSockFunc_frame hout hreply

/-- Steps of the server and the network: the connection of a command stays its
own. -/
theorem WorkerInv.network (h : w.WorkerInv sv) (hpc : w'.pc = w.pc)
    (hreplies : w'.replies = w.replies) (hanswers : ∀ p ∈ w.answers, p ∈ w'.answers)
    (hclean : w.link.Clean → w'.link.Clean) (hawaits : ∀ k, w.Awaits k → w'.Awaits k) :
    w'.WorkerInv sv := by
  constructor
  · rw [hpc]
    cases hw : w.pc with
    | idle => trivial
    | writing k c fd ptr => exact fun hresp => hclean (h.at_pc hw hresp)
    | waiting k c => exact fun hresp => hawaits k (h.at_pc hw hresp)
    | reading k c st =>
      intro hresp
      obtain ⟨hst, hk⟩ := h.at_pc hw hresp
      exact ⟨hst, hawaits k hk⟩
    | replying k c answer isOpOk msg =>
      intro hanswer
      obtain ⟨a, ha, hmsg⟩ := h.at_pc hw hanswer
      exact ⟨a, hanswers _ ha, hmsg⟩
  · intro r hr hanswer
    rw [hreplies] at hr
    obtain ⟨a, ha, hframe⟩ := h.correlated r hr hanswer
    exact ⟨a, hanswers _ ha, hframe⟩

theorem WorkerInv.answer {k : Nat} {unanswered : List Nat} (h : w.WorkerInv sv)
    (hlink : w.link.unanswered = k :: unanswered) (bytes : List UInt8) :
    { w with
      link := { w.link with unanswered, flight := w.link.flight ++ bytes }
      answers := w.answers ++ [(k, bytes)] }.WorkerInv sv := by
  refine h.network rfl rfl (fun p hp => List.mem_append_left _ hp) ?_ ?_
  · intro hclean
    rw [hclean.1] at hlink
    exact absurd hlink (by simp)
  · rintro k' (⟨hnil, hnone | hone⟩ | ⟨hnone, -⟩)
    · rw [hnone] at hlink
      exact absurd hlink (by simp)
    · -- The answer to the one request goes on an empty connection.
      rw [hone] at hlink
      obtain ⟨rfl, rfl⟩ := List.cons.inj hlink
      right
      refine ⟨rfl, List.mem_append_right _ ?_⟩
      show (k', w.link.rx ++ (w.link.flight ++ bytes)) ∈ [(k', bytes)]
      rw [← List.append_assoc, hnil, List.nil_append]
      exact List.mem_singleton_self _
    · rw [hnone] at hlink
      exact absurd hlink (by simp)

theorem WorkerInv.deliver (n : Nat) (h : w.WorkerInv sv) :
    { w with link := { w.link with
      rx := w.link.rx ++ w.link.flight.take n, flight := w.link.flight.drop n } }.WorkerInv sv := by
  refine h.network rfl rfl (fun p hp => hp) ?_ ?_
  · rintro ⟨hunanswered, hflight, hrx⟩
    exact ⟨hunanswered, by simp [hflight], by simp [hflight, hrx]⟩
  · intro k hk
    unfold Awaits
    dsimp only
    rw [List.append_assoc, List.take_append_drop]
    exact hk

/-- A careful step keeps the invariant. -/
theorem WorkerInv.step {a : Label} (h : w.WorkerInv sv) (hcareful : w.Careful a)
    (hstep : w.step sv a = some w') : w'.WorkerInv sv := by
  cases took_of_step hstep with
  | command _ hcommand => exact h.command hcareful hcommand
  | write hpc hwrite => exact h.write hpc hwrite
  | select hpc hselect => exact h.select hpc hselect
  | @read k c st n _ hpc hturn =>
    have hwhole : w.ReadsWhole n (.reading k c st) := hpc ▸ hcareful
    have hin := h.at_pc hpc
    cases hresp : c.resp with
    | false => exact h.turn_quiet _ hresp hturn
    | true =>
      obtain ⟨rfl, hawaits⟩ := hin hresp
      exact h.turn_whole hawaits (hwhole hresp) hturn
  | @readFails k c st e _ hpc hturn =>
    have hin := h.at_pc hpc
    cases hresp : c.resp with
    | false => exact h.turn_quiet w.link hresp hturn
    | true =>
      obtain ⟨rfl, -⟩ := hin hresp
      rw [turn_error] at hturn
      obtain rfl := Option.some.inj hturn
      exact h.move rfl rfl trivial
  | reply hpc hreply => exact h.reply hpc hreply
  | answer hlink bytes => exact h.answer hlink bytes
  | deliver n => exact h.deliver n
  | close => exact h.network rfl rfl (fun _ hp => hp) id (fun _ => id)

end Steps

end Worker

/-- **In every run of any workers whose steps are careful, every reply that carries an
answer carries the whole answer to its own command.** -/
theorem correlated_of_careful {ι : Type} [DecidableEq ι] (sv : Service)
    {labels : List (ι × Label)} {s : ι → Worker}
    (hcareful : Meets (eachStep (Worker.step sv)) (OnEach Worker.Careful) (fun _ => .init) labels)
    (hrun : run (eachStep (Worker.step sv)) (fun _ => .init) labels = some s) :
    ∀ i, (s i).Correlated sv := by
  have hinv : ∀ i, (s i).WorkerInv sv :=
    eachStep_invariant (fun _ _ _ h hc hs => h.step hc hs) (fun _ => Worker.WorkerInv.init)
      hcareful hrun
  exact fun i => (hinv i).correlated

/-! ## One command, and two -/

/-- A command is executed up to `select`, and its request of `n` bytes is written in
one turn behind a probe that returns `probe`. -/
def asks (c : Call) (connect : Attempt) (probe : Except Errno Nat) (n : Nat) : List Label :=
  [.command c connect, .write { Round.plain n with probe }]

/-- The worker behind it, on the connection `fd`. -/
def asked (w : Worker) (c : Call) (t : Thread) (fd : Nat) : Worker :=
  { w.behind t with
    next := w.next + 1
    link := ((w.behind t).link.apply (.wrote fd [])).request w.next
    pc := .waiting w.next c }

theorem run_asks {sv : Service} {w : Worker} {c : Call} {connect : Attempt} {fd : Nat}
    {t : Thread} {b : UInt8} {ptr : List UInt8} {probe : Except Errno Nat} (hidle : w.pc = .idle)
    (hmake : makeSoapSocket ⟨w.td, []⟩ connect = (fd + 1, t))
    (hrequest : makeSoapRequest sv.requestAuth c.cmd c.size = some (b :: ptr))
    (hprobe : (w.behind t).link.Probes probe) (hopen : isSockClosedByPeer (fd + 1) probe = false) :
    run (Worker.step sv) w (asks c connect probe (b :: ptr).length) =
      some (asked w c t (fd + 1)) := by
  have hcommand : w.step sv (.command c connect) =
      some { w.behind t with next := w.next + 1, pc := .writing w.next c (fd + 1) (b :: ptr) } := by
    simp only [Worker.step, hidle, Worker.command, hmake, hrequest]
  have hturn (td : Nat) : writenFdTurn (fd + 1) (b :: ptr) ⟨td, []⟩
      { Round.plain (b :: ptr).length with probe } =
        some (.next (fd + 1) [] ⟨td, [.wrote (fd + 1) (b :: ptr)]⟩) := by
    unfold writenFdTurn
    rw [hopen]
    simp [writenFdWrite, Round.plain, Thread.log]
  rw [asks, run, hcommand]
  simp only [run, Worker.step, Worker.write, hturn, asked]
  rw [if_pos hprobe]
  rfl

/-- A proxy with a credential, and what it extracts of `answerA`. -/
def sampleService : Service :=
  { requestAuth := some [97], analysisSoapResponse := fun _ _ => some (true, [65], 1),
    clientFd := 9 }

/-- An answer of the game server with the result `A`. -/
def answerA : List UInt8 :=
  ascii "HTTP/1.1 200 OK\r\n\r\n<a><b><c><result>A</result></c></b></a>"

/-- The command `A` of the client on descriptor 9. -/
def commandA : Call := { clientFd := 9, resp := true, cmd := [65], size := 1 }

/-- The request of `commandA`. -/
def requestA : List UInt8 :=
  (makeSoapRequest sampleService.requestAuth commandA.cmd commandA.size).getD []

theorem requestA_eq : ∃ b ptr, requestA = b :: ptr ∧
    makeSoapRequest sampleService.requestAuth commandA.cmd commandA.size = some (b :: ptr) := by
  have hrequest := makeSoapRequest_short (List.cons_ne_nil 97 []) (by decide)
    (List.cons_ne_nil 65 []) (by decide)
  have hlength := length_soapEnvelope [65]
  obtain ⟨b, ptr, hcons⟩ := List.exists_cons_of_length_pos
    (show 0 < (soapRequestHeader (soapEnvelope [65]).length [97] ++ soapEnvelope [65]).length by
      rw [List.length_append]
      omega)
  rw [hcons] at hrequest
  exact ⟨b, ptr, congrArg (Option.getD · []) hrequest, hrequest⟩

/-- A connection attempt that succeeds. -/
def connected (fd : Nat) : Attempt := ⟨.ok fd, fun _ => true, fun _ => true⟩

/-- The worker behind the request of its first command. -/
def askedFirst : Worker := asked .init commandA ⟨7, [.opened 7]⟩ 7

/-- The first command, on a new connection. -/
def asksFirst : List Label := asks commandA (connected 7) (.error .eagain) requestA.length

theorem run_asksFirst : run (Worker.step sampleService) .init asksFirst = some askedFirst := by
  obtain ⟨b, ptr, hrequestA, hrequest⟩ := requestA_eq
  rw [asksFirst, hrequestA]
  apply run_asks rfl rfl hrequest
  · exact ⟨rfl, rfl⟩
  · rfl

/-- The answer arrives and the reply is written. -/
def answered : List Label :=
  [.answer answerA, .deliver answerA.length, .select 1, .read answerA.length, .reply [.plain 39]]

/-- The frame of the reply. -/
def frameA : List UInt8 := ((replyFrame true [65]).getD none).getD []

/-- The worker behind it. -/
def answeredFirst : Worker :=
  { td := 7, link := .fresh 7, pc := .idle, next := 1, answers := [(0, answerA)],
    replies := [⟨0, true, frameA⟩] }

theorem run_answered : run (Worker.step sampleService) askedFirst answered =
    some answeredFirst := by
  rw [answeredFirst, answered, answerA, ascii_ofList]
  decide +kernel

/-- The second command, on the same connection. -/
def asksSecond : List Label := asks commandA (connected 8) (.error .eagain) requestA.length

theorem run_asksSecond : run (Worker.step sampleService) answeredFirst asksSecond =
    some (asked answeredFirst commandA ⟨7, []⟩ 7) := by
  obtain ⟨b, ptr, hrequestA, hrequest⟩ := requestA_eq
  rw [asksSecond, hrequestA]
  exact run_asks rfl rfl hrequest ⟨rfl, rfl⟩ rfl

/-- A command on a new connection or a clean one is careful up to `select`. -/
theorem careful_asks {w : Worker} {c : Call} {connect : Attempt} {probe : Except Errno Nat}
    {n : Nat} (hclean : c.resp = true → w.td > 0 → w.link.Clean) :
    Meets (Worker.step sampleService) Worker.Careful w (asks c connect probe n) :=
  ⟨hclean, fun _ _ => ⟨trivial, fun _ _ => trivial⟩⟩

theorem correlated_of_two_commands :
    ∃ s, run (eachStep (Worker.step sampleService)) (fun _ : Fin 2 => .init)
        ((asksFirst ++ (answered ++ (asksSecond ++ answered))).map ((0 : Fin 2), ·)) = some s ∧
      (s 0).replies.map Reply.command = [0, 1] ∧ ∀ i, (s i).Correlated sampleService := by
  have hanswered : (run (Worker.step sampleService) (asked answeredFirst commandA ⟨7, []⟩ 7)
      answered).map (fun w => w.replies.map Reply.command) = some [0, 1] := by
    rw [answeredFirst, answered, answerA, ascii_ofList]
    decide +kernel
  obtain ⟨w, hw, hreplies⟩ := Option.map_eq_some_iff.mp hanswered
  have hfirst : Meets (Worker.step sampleService) Worker.Careful askedFirst answered := by
    rw [answered, answerA, ascii_ofList]
    decide +kernel
  have hsecond : Meets (Worker.step sampleService) Worker.Careful
      (asked answeredFirst commandA ⟨7, []⟩ 7) answered := by
    rw [answeredFirst, answered, answerA, ascii_ofList]
    decide +kernel
  have hcareful : Meets (Worker.step sampleService) Worker.Careful .init
      (asksFirst ++ (answered ++ (asksSecond ++ answered))) :=
    Meets.append run_asksFirst (careful_asks fun _ htd => absurd htd (by decide))
      (Meets.append run_answered hfirst
        (Meets.append run_asksSecond (careful_asks fun _ _ => ⟨rfl, rfl, rfl⟩) hsecond))
  have hone : run (Worker.step sampleService) .init
      (asksFirst ++ (answered ++ (asksSecond ++ answered))) = some w :=
    run_append run_asksFirst (run_append run_answered (run_append run_asksSecond hw))
  have hrun : run (eachStep (Worker.step sampleService)) (fun _ : Fin 2 => .init)
      ((asksFirst ++ (answered ++ (asksSecond ++ answered))).map ((0 : Fin 2), ·)) =
        some (Function.update (fun _ => .init) 0 w) :=
    run_eachStep 0 hone
  refine ⟨_, hrun, ?_, correlated_of_careful sampleService (Meets.eachStep 0 hcareful) hrun⟩
  rw [Function.update_self, hreplies]

/-- The worker when `select` has given up on the first command and the answer to it
has arrived. -/
def askedLate : Worker :=
  { td := 7, link := { Link.fresh 7 with rx := answerA }, pc := .idle, next := 1,
    answers := [(0, answerA)], replies := [] }

/-- The answer to the first command comes when `select` has given up, and is read as
the answer to the second. -/
theorem late_answer_read :
    ¬ ∀ (ι : Type) [DecidableEq ι] (sv : Service) (labels : List (ι × Label)) (s : ι → Worker),
      run (eachStep (Worker.step sv)) (fun _ => .init) labels = some s →
      ∀ i, (s i).Correlated sv := by
  intro h
  have hlate : run (Worker.step sampleService) askedFirst
      [.select 0, .answer answerA, .deliver answerA.length] = some askedLate := by
    rw [askedLate, answerA, ascii_ofList]
    decide +kernel
  have hunread : answerA ≠ [] := by
    rw [answerA, ascii_ofList]
    exact List.cons_ne_nil _ _
  have hsecond : run (Worker.step sampleService) askedLate
      (asks commandA (connected 8) (.ok 1) requestA.length) =
        some (asked askedLate commandA ⟨7, []⟩ 7) := by
    obtain ⟨b, ptr, hrequestA, hrequest⟩ := requestA_eq
    rw [hrequestA]
    exact run_asks rfl rfl hrequest hunread rfl
  have hread : (run (Worker.step sampleService) (asked askedLate commandA ⟨7, []⟩ 7)
      [.select 1, .read answerA.length, .reply [.plain 39]]).map
        (fun w => (w.answers.map Prod.fst, w.replies.map fun r => (r.command, r.answer))) =
      some ([0], [(1, true)]) := by
    rw [askedLate, answerA, ascii_ofList]
    decide +kernel
  obtain ⟨w, hw, hstate⟩ := Option.map_eq_some_iff.mp hread
  rw [Prod.mk.injEq] at hstate
  obtain ⟨hanswers, hreplies⟩ := hstate
  have hrun := run_append run_asksFirst (run_append hlate (run_append hsecond hw))
  have hcorrelated := h (Fin 2) sampleService _ _ (run_eachStep 0 hrun) 0
  rw [Function.update_self] at hcorrelated
  -- The second command has a reply, and only the first has been answered.
  obtain ⟨r, hr, hreply⟩ := List.map_eq_singleton_iff.mp hreplies
  rw [Prod.mk.injEq] at hreply
  obtain ⟨a, ha, -⟩ := hcorrelated r (by rw [hr]; exact List.mem_singleton_self _) hreply.2
  have hanswered : r.command ∈ w.answers.map Prod.fst := List.mem_map_of_mem ha
  rw [hanswers, hreply.1] at hanswered
  exact absurd hanswered (by decide)

end Backend

end WowProxy
