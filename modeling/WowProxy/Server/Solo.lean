/-
  Server/Solo.lean --- a worker that runs alone does what `read_sock_func` does.

  The machine takes `read_sock_func` apart into the steps at which workers can
  overtake each other.  Put together again, without a step of anyone else, they
  are the function: whatever is in the receive buffer, the steps of the worker
  leave in it what the function leaves, and execute the commands it executes.
-/
import WowProxy.Server.Steps

set_option autoImplicit false

namespace WowProxy.ServerState

open WowProxy.Lib.CString WowProxy.Lib.Runs

variable {ι : Type} [DecidableEq ι]

/-- The state with worker `i` at `pc` and the connection `c` changed. -/
def solo (s : ServerState ι) (i : ι) (c : ConnId) (conn : SockConn) (pc : Pc) : ServerState ι :=
  (s.setConn c conn).setPc i pc

section Solo

variable (d : Decoder) (s : ServerState ι) (i : ι) (c : ConnId)

theorem solo_self {pc : Pc} (hpc : s.workers i = pc) : s.solo i c (s.conns c) pc = s := by
  unfold solo setPc setConn
  rw [Function.update_eq_self, ← hpc, Function.update_eq_self]

theorem workers_solo (conn : SockConn) (pc : Pc) : (s.solo i c conn pc).workers i = pc :=
  workers_setPc_self _ _ _

theorem conns_solo (conn : SockConn) (pc : Pc) : (s.solo i c conn pc).conns c = conn :=
  s.conns_setConn_self c conn

theorem setPc_solo (conn : SockConn) (pc pc' : Pc) :
    (s.solo i c conn pc).setPc i pc' = s.solo i c conn pc' := by
  unfold solo setPc
  rw [Function.update_idem]

theorem setConn_solo (conn conn' : SockConn) (pc : Pc) :
    (s.solo i c conn pc).setConn c conn' = s.solo i c conn' pc := by
  unfold solo setPc setConn
  dsimp only
  rw [Function.update_idem]

/-- The commands of a message are executed one after the other. -/
theorem run_execute (fd : Nat) (cmds : List ParsedCommand) :
    ∀ conn : SockConn, cmds ≠ [] →
      run (step d) (s.solo i c conn (.executing c fd cmds)) (cmds.map fun _ => .execute i) =
        some (s.solo i c { conn with executed := conn.executed ++ cmds } (.peeking c fd)) := by
  induction cmds with
  | nil => intro conn hne; exact absurd rfl hne
  | cons cmd cmds ih =>
    intro conn _
    have hstep : step d (s.solo i c conn (.executing c fd (cmd :: cmds))) (.execute i) =
        some (s.solo i c (executeCmd conn cmd)
          (if cmds = [] then .peeking c fd else .executing c fd cmds)) := by
      simp only [step, workers_solo, execute, conns_solo, setConn_solo, setPc_solo, executeCmd]
    rw [List.map_cons, run, hstep]
    cases cmds with
    | nil => rfl
    | cons next cmds =>
      rw [if_neg (List.cons_ne_nil next cmds)]
      dsimp only
      rw [ih _ (List.cons_ne_nil next cmds)]
      simp [executeCmd]

/-- The bytes of a message are read, and handed to `analysis_message` as
`read_normal_sock` hands them on. -/
theorem run_read {fd : Nat} (hfd : s.fds fd = some c) {conn : SockConn} (hrx : conn.rx ≠ [])
    {start size : Nat} (hsize : 0 < size) :
    ∃ labels, run (step d) (s.solo i c conn (.reading c fd start size [])) labels =
      some (s.solo i c (readBytes conn (conn.rx.take size).length)
        (.analysing c fd (some (padded (conn.rx.take size) size)) (conn.rx.take size).length)) := by
  have hpos : 0 < conn.rx.length := List.length_pos_iff.mpr hrx
  have hlen : (conn.rx.take size).length = min size conn.rx.length := List.length_take
  have hall : conn.rx.take (conn.rx.take size).length = conn.rx.take size := by
    rw [hlen, List.take_eq_take_iff]
    omega
  have hread : step d (s.solo i c conn (.reading c fd start size []))
      (.read i (conn.rx.take size).length) =
        some (s.solo i c (readBytes conn (conn.rx.take size).length)
          (if (conn.rx.take size).length = size then
            .analysing c fd (some (conn.rx.take size)) (conn.rx.take size).length
          else .reading c fd start size (conn.rx.take size))) := by
    have hfd' : (s.solo i c conn (.reading c fd start size [])).fds fd = some c := hfd
    simp only [step, workers_solo, read, hfd', conns_solo, hrx, if_false, setConn_solo, setPc_solo,
      List.nil_append, hall, readBytes]
    rw [if_pos]
    rw [List.length_nil, hlen]
    omega
  by_cases hfull : (conn.rx.take size).length = size
  · refine ⟨[.read i (conn.rx.take size).length], ?_⟩
    rw [run, hread, if_pos hfull]
    simp only [run]
    rw [padded, hfull, Nat.sub_self, List.replicate_zero, List.append_nil]
  · -- The buffer is empty behind the first read, and the second one says so.
    refine ⟨[.read i (conn.rx.take size).length, .read i 0], ?_⟩
    have hempty : (readBytes conn (conn.rx.take size).length).rx = [] := by
      show conn.rx.drop _ = []
      rw [List.drop_eq_nil_iff, hlen]
      omega
    rw [run, hread, if_neg hfull]
    have hfd' : (s.solo i c (readBytes conn (conn.rx.take size).length)
      (.reading c fd start size (conn.rx.take size))).fds fd = some c := hfd
    simp only [run, step, workers_solo, read, hfd', conns_solo, hempty, if_true, setPc_solo]

/-- One turn of the loop up to the commands of its message. -/
theorem run_message {fd : Nat} (hfd : s.fds fd = some c) {conn : SockConn}
    (hhead : ¬ headerValue conn.rx ≤ 0) {cmds : List ParsedCommand}
    (hcmds : analysisMessage d (takenMessage conn.rx).buf (takenMessage conn.rx).nbytes.toNat =
      some cmds) :
    ∃ labels taken, run (step d) (s.solo i c conn (.peeking c fd)) labels =
      some (s.solo i c { conn with rx := conn.rx.drop (takenSize conn.rx), taken }
        (if cmds = [] then .finishing c else .executing c fd cmds)) := by
  have hne : conn.rx ≠ [] := by
    intro hnil
    rw [hnil, headerValue_nil] at hhead
    exact hhead (Int.le_refl 0)
  have hsize : 0 < takenSize conn.rx := by
    unfold takenSize
    rw [headSize]
    omega
  have hpeek : step d (s.solo i c conn (.peeking c fd)) (.peek i) =
      some (s.solo i c conn (.reading c fd conn.taken (takenSize conn.rx) [])) := by
    have hfd' : (s.solo i c conn (.peeking c fd)).fds fd = some c := hfd
    simp only [step, workers_solo, peek, hfd', conns_solo, setPc_solo, hne, hhead, if_false]
  obtain ⟨reads, hreads⟩ : ∃ labels, run (step d)
      (s.solo i c conn (.reading c fd conn.taken (takenSize conn.rx) [])) labels = some _ :=
    run_read d s i c hfd hne hsize
  set taken := conn.rx.take (takenSize conn.rx) with htaken
  have hconn : readBytes conn taken.length = { conn with
      rx := conn.rx.drop (takenSize conn.rx), taken := conn.taken + taken.length } := by
    have hdrop : conn.rx.drop taken.length = conn.rx.drop (takenSize conn.rx) := by
      rw [htaken, List.length_take, List.drop_eq_drop_iff]
      omega
    rw [readBytes, hdrop]
  have hanalyse (conn' : SockConn) : step d (s.solo i c conn' (.analysing c fd
      (some (padded taken (takenSize conn.rx))) taken.length)) (.analyse i) =
        some (s.solo i c conn' (if cmds = [] then .finishing c else .executing c fd cmds)) := by
    have hmessage : analysisMessage d (some (padded taken (takenSize conn.rx))) taken.length =
        some cmds := hcmds
    simp only [step, workers_solo, analyse, hmessage, setPc_solo]
  refine ⟨.peek i :: (reads ++ [.analyse i]), conn.taken + taken.length, ?_⟩
  rw [run, hpeek, ← hconn]
  apply run_append hreads
  rw [run, hanalyse]
  rfl

/-- **The steps of a worker that runs alone are the loop of `read_sock_func`.** -/
theorem run_readSockLoop {turns : Nat} (hturns : 2 ≤ turns) {fd : Nat} (hfd : s.fds fd = some c)
    (fuel : Nat) :
    ∀ (conn : SockConn) (job out : ReadJob (List UInt8)), conn.fin = false → conn.rx = job.sock →
      readSockLoop arrivedSock d turns fuel job = some out →
      ∃ labels new taken, out.executed = job.executed ++ new ∧
        run (step d) (s.solo i c conn (.peeking c fd)) labels =
          some (s.solo i c
            { conn with rx := out.sock, taken, executed := conn.executed ++ new }
            (.finishing c)) := by
  induction fuel with
  | zero => intro conn job out _ _ h; exact absurd h (by simp [readSockLoop])
  | succ fuel ih =>
    intro conn job out hfin hrx h
    obtain ⟨m, rest, hnormal, hcase⟩ := readSockLoop_cases arrivedSock h
    rw [readNormalSock_arrived hturns, ← hrx] at hnormal
    by_cases hhead : headerValue conn.rx ≤ 0
    · -- Nothing to peek at, or a header that is not positive.
      rw [if_pos hhead] at hnormal
      simp only [Option.some.injEq, Prod.mk.injEq] at hnormal
      obtain ⟨hnbytes, -, rfl⟩ := hnormal
      obtain rfl : out = { job with sock := conn.rx } := by
        rcases hcase with ⟨-, hout⟩ | ⟨cmds, hneg, -⟩
        · exact hout
        · omega
      refine ⟨[.peek i], [], conn.taken, (List.append_nil _).symm, ?_⟩
      have hpeek : (s.solo i c conn (.peeking c fd)).peek i c fd =
          s.solo i c conn (.finishing c) := by
        have hfd' : (s.solo i c conn (.peeking c fd)).fds fd = some c := hfd
        unfold peek
        simp only [hfd', conns_solo, hfin, setPc_solo, hhead, if_true]
        split <;> rfl
      simp only [run, step, workers_solo, hpeek, List.append_nil]
    · rw [if_neg hhead] at hnormal
      simp only [Option.some.injEq, Prod.mk.injEq] at hnormal
      obtain ⟨hnbytes, hbuf, rfl⟩ := hnormal
      have hnonneg : ¬ m.nbytes < 0 := by
        rw [← hnbytes]
        show ¬ (((conn.rx.take (takenSize conn.rx)).length : Int) < 0)
        omega
      obtain ⟨cmds, -, hcmds, hcase⟩ := hcase.resolve_left fun hneg => hnonneg hneg.1
      rw [← hbuf, ← hnbytes] at hcmds
      obtain ⟨labels, taken, hmessage⟩ := run_message d s i c hfd hhead hcmds
      rcases hcase with ⟨hnil, rfl⟩ | ⟨hcons, hloop⟩
      · -- A rejected message ends the job.
        refine ⟨labels, [], taken, by simp [ReadJob.pass, hnil], hmessage.trans ?_⟩
        rw [if_pos hnil, List.append_nil]
        rfl
      · rw [if_neg hcons] at hmessage
        obtain ⟨later, new, taken', hnew, hlater⟩ := ih
          { conn with
            rx := conn.rx.drop (takenSize conn.rx), taken, executed := conn.executed ++ cmds }
          (job.pass m cmds (conn.rx.drop (takenSize conn.rx))) out hfin rfl hloop
        have hall := run_append hmessage (run_append (run_execute d s i c fd cmds _ hcons) hlater)
        refine ⟨_, cmds ++ new, taken', ?_, hall.trans ?_⟩
        · rw [hnew, ReadJob.pass, List.append_assoc]
        · simp only [List.append_assoc]

end Solo

/-- **A worker that runs a read job alone, on an open connection, executes what
`read_sock_func` executes and leaves in the receive buffer what it leaves.** -/
theorem run_readSockFunc (d : Decoder) {turns : Nat} (hturns : 2 ≤ turns) (fuel : Nat)
    {s : ServerState ι} {i : ι} {c : ConnId} (hpc : s.workers i = .started (.read c))
    (hreg : s.Registered c) (hfin : (s.conns c).fin = false) {job : ReadJob (List UInt8)}
    (hjob : readSockFunc arrivedSock d turns fuel (s.conns c).rx = some job) :
    ∃ labels s', run (step d) s labels = some s' ∧ s'.workers i = .idle ∧
      (s'.conns c).rx = job.sock ∧ (s'.conns c).executed = (s.conns c).executed ++ job.executed ∧
      ∀ k, k ≠ c → s'.conns k = s.conns k := by
  obtain ⟨labels, new, taken, hnew, hrun⟩ := run_readSockLoop d s i c hturns hreg fuel (s.conns c)
    { messages := [], executed := [], sock := (s.conns c).rx } job hfin rfl hjob
  rw [List.nil_append] at hnew
  have henter : step d s (.enter i) =
      some (s.solo i c (s.conns c) (.peeking c (s.conns c).sockFd)) := by
    have hsolo := setPc_solo s i c (s.conns c) (.started (.read c)) (.peeking c (s.conns c).sockFd)
    rw [solo_self s i c hpc] at hsolo
    simp only [step, hpc, enter, hsolo]
  set conn : SockConn :=
    { s.conns c with rx := job.sock, taken, executed := (s.conns c).executed ++ new } with hconn
  have hfinish : step d (s.solo i c conn (.finishing c)) (.finish i) =
      some (s.solo i c conn .idle) := by
    simp only [step, workers_solo, setPc_solo]
  refine ⟨.enter i :: (labels ++ [.finish i]), s.solo i c conn .idle, ?_, ?_, ?_, ?_, ?_⟩
  · rw [run, henter]
    apply run_append hrun
    rw [run, hfinish]
    rfl
  · rw [workers_solo]
  · rw [conns_solo, hconn]
  · rw [conns_solo, hconn, hnew]
  · intro k hk
    exact s.conns_setConn_of_ne hk conn

end WowProxy.ServerState
