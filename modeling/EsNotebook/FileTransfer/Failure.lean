import EsNotebook.FileTransfer.Network

/-!
# Failures of the server

A session fails when a header is refused, when `testfile.bin` cannot be
opened and when a read fails.  The client learns of a failure from an
`FSS_FILE_RESP_ERROR` header or from the end of the connection; the server
sends the first never, and causes the second only when a write fails as well.
-/

namespace EsNotebook.FileTransfer

open CMemory

/-- The three ways in which a call fails. -/
inductive Fails (s : ServerRun) (c : ServerCall) : Prop
  | header (hreason : c.reason = .receive) (hstate : s.pss.state = .connected)
      (hhdr : headerRefused c.inp = some true)
  | open (hreason : c.reason = .receive) (hstate : s.pss.state = .waitStart)
      (hopen : c.io.fopen = false)
  | read (hreason : c.reason = .serverWriteable) (hstate : s.pss.state = .transfer)
      (hread : c.io.freadError ≠ none)

/-- Between `s` and `t` the peer has been told, or cut off. -/
def Told (s t : ServerRun) : Prop :=
  t.closed = true ∨ ∃ w ∈ fresh (queuedWrites s.log) (queuedWrites t.log),
    w.site ≠ .fileContent ∧ load32 w.payload 0 = some fssFileRespError

/-- The failure of the step from `s` to `t` is told at once or by the next
`WRITEABLE` callback, and no failed read ends in `FSS_DONE`. -/
structure Reported (F : Bytes) (s : ServerRun) (c : ServerCall) (t : ServerRun) : Prop where
  told : Told s t ∨ ∀ es u w v, (serverSession F).Run t es u →
    (∀ d ∈ es, d.reason ≠ .serverWriteable) → w.reason = .serverWriteable →
      (serverSession F).step u w v → Told s v
  not_done : c.reason = .serverWriteable → ∀ es u, (serverSession F).Run t es u →
    u.pss.state ≠ .done

/-- The failures that leave the connection up: a refused header, a missing
file, and a failed read whose block is queued all the same. -/
inductive Silent (F : Bytes) (s : ServerRun) (c : ServerCall) : Prop
  | header (hreason : c.reason = .receive) (hstate : s.pss.state = .connected)
      (hhdr : headerRefused c.inp = some true)
  | open (hreason : c.reason = .receive) (hstate : s.pss.state = .waitStart)
      (hopen : c.io.fopen = false)
  | read {pos : ℕ} (hreason : c.reason = .serverWriteable) (hstate : s.pss.state = .transfer)
      (hpos : s.pss.fp = some pos) (hread : c.io.freadError ≠ none)
      (hwrite : (contentWrite (fread F pos c.io.freadError)).Queued c.io.lwsWrite)

theorem Silent.fails {F : Bytes} {s : ServerRun} {c : ServerCall} (h : Silent F s c) :
    Fails s c := by
  cases h with
  | header hreason hstate hhdr => exact .header hreason hstate hhdr
  | «open» hreason hstate hopen => exact .open hreason hstate hopen
  | read hreason hstate _ hread _ => exact .read hreason hstate hread

theorem fread_length_lt {F : Bytes} {pos : ℕ} {err : Option (Fin 10000)} (h : err ≠ none) :
    (fread F pos err).length < 10000 := by
  cases err with
  | none => contradiction
  | some k =>
      simp only [fread, List.length_take]
      have hk := k.isLt
      omega

theorem closed_of_fails {F : Bytes} {s t : ServerRun} {c : ServerCall}
    (h : serverStep F s c = some t) (hfails : Fails s c) (hsilent : ¬Silent F s c) :
    t.closed = true ∧ t.pss.state = .transfer := by
  obtain ⟨-, htrans⟩ := serverTransition_of_step h
  cases hfails with
  | header hreason hstate hhdr => exact absurd (.header hreason hstate hhdr) hsilent
  | «open» hreason hstate hopen => exact absurd (.open hreason hstate hopen) hsilent
  | read hreason hstate hread =>
      cases htrans with
      | sent _ _ hpos hblock hwrite =>
          exact absurd (.read hreason hstate hpos hread (hblock ▸ hwrite)) hsilent
      | sendFailed => exact ⟨rfl, hstate⟩
      | idle _ hidle => exact absurd hstate (hidle hreason).2
      | headerRefused hreason' | headerAccepted hreason' | started hreason'
      | notOpened hreason' | ignored hreason' => simp [hreason] at hreason'
      | replied _ hready | replyFailed _ hready => simp [hstate] at hready

/-- After a silent failure the session is over, up, and has told nothing. -/
theorem quiet_of_silent {F : Bytes} {s t : ServerRun} {c : ServerCall}
    (h : serverStep F s c = some t) (hsilent : Silent F s c) :
    t.closed = false ∧
      (t.pss.state = .error ∧ queuedWrites t.log = queuedWrites s.log ∨
        c.reason = .serverWriteable ∧ t.pss.state = .done) := by
  obtain ⟨-, htrans⟩ := serverTransition_of_step h
  cases hsilent with
  | header hreason hstate hhdr =>
      cases htrans with
      | headerRefused => exact ⟨rfl, .inl ⟨rfl, queuedWrites_received _ _⟩⟩
      | headerAccepted _ _ hhdr' => simp [hhdr] at hhdr'
      | started _ hstate' | notOpened _ hstate' => simp [hstate] at hstate'
      | ignored _ hconn => exact absurd hstate hconn
      | replied hreason' | replyFailed hreason' | sent hreason' | sendFailed hreason' =>
          simp [hreason] at hreason'
      | idle hreason' => exact absurd hreason hreason'
  | «open» hreason hstate hopen =>
      cases htrans with
      | notOpened => exact ⟨rfl, .inl ⟨rfl, queuedWrites_received _ _⟩⟩
      | started _ _ hopen' => simp [hopen] at hopen'
      | headerRefused _ hstate' | headerAccepted _ hstate' => simp [hstate] at hstate'
      | ignored _ _ hwait => exact absurd hstate hwait
      | replied hreason' | replyFailed hreason' | sent hreason' | sendFailed hreason' =>
          simp [hreason] at hreason'
      | idle hreason' => exact absurd hreason hreason'
  | read hreason hstate hpos hread hwrite =>
      cases htrans with
      | sent _ _ hpos' hblock =>
          refine ⟨rfl, .inr ⟨hreason, if_pos ?_⟩⟩
          rw [hblock]
          exact fread_length_lt hread
      | sendFailed _ _ hpos' hblock hwrite' =>
          obtain rfl := Option.some.inj (hpos.symm.trans hpos')
          exact absurd hwrite (hblock ▸ hwrite')
      | idle _ hidle => exact absurd hstate (hidle hreason).2
      | headerRefused hreason' | headerAccepted hreason' | started hreason'
      | notOpened hreason' | ignored hreason' => simp [hreason] at hreason'
      | replied _ hready | replyFailed _ hready => simp [hstate] at hready

/-- A session in `FSS_ERROR` answers `WRITEABLE` with nothing. -/
theorem serverStep_of_error {F : Bytes} {s : ServerRun} (hopen : s.closed = false)
    (hstate : s.pss.state = .error) :
    serverStep F s ⟨.serverWriteable, [], .ok⟩ = some s := by
  apply serverStep_eq_some.mpr
  refine ⟨⟨hopen, by simp⟩, ⟨s.pss, none, 0⟩, ?_, ServerRun.after_idle hopen (by simp)⟩
  simp only [callbackFileServer, serverWriteable, hstate]

theorem not_told_of_quiet {s t : ServerRun} (hopen : t.closed = false)
    (hlog : queuedWrites t.log = queuedWrites s.log) : ¬Told s t := by
  rintro (hclosed | ⟨w, hw, -⟩)
  · simp [hopen] at hclosed
  · simp [hlog] at hw

theorem reported_iff_not_silent {F : Bytes} {s t : ServerRun} {c : ServerCall}
    (h : serverStep F s c = some t) (hfails : Fails s c) :
    Reported F s c t ↔ ¬Silent F s c := by
  constructor
  · intro hreported hsilent
    obtain ⟨hopen, ⟨hstate, hlog⟩ | ⟨hreason, hdone⟩⟩ := quiet_of_silent h hsilent
    · have hnot := not_told_of_quiet hopen hlog
      rcases hreported.told with htold | hnext
      · exact hnot htold
      · apply hnot
        exact hnext [] t _ t .nil (by simp) rfl (serverStep_of_error hopen hstate)
    · exact hreported.not_done hreason [] t .nil hdone
  · intro hsilent
    obtain ⟨hclosed, hstate⟩ := closed_of_fails h hfails hsilent
    refine ⟨.inl (.inl hclosed), fun _ es u hrun ↦ ?_⟩
    have heq : u = t := by
      apply hrun.eq_of_terminal
      intro d v hstep
      obtain ⟨hopen, -⟩ := serverTransition_of_step hstep
      simp [hclosed] at hopen
    simp [heq, hstate]

/-! ## Failures inside the network -/

/-- The call that a network event makes on the server. -/
def Net.serverCallOf (n : Net) : NetEvent → Option ServerCall
  | .serverWriteable io => some ⟨.serverWriteable, [], io⟩
  | .serverReceive io => n.toServer.head?.map fun w ↦ ⟨.receive, w.payload, io⟩
  | _ => none

/-- The event makes a call on the server for which `P` holds. -/
def OnServer (P : ServerRun → ServerCall → Prop) : Config → NetEvent → Prop
  | .up n, e => ∃ c, n.serverCallOf e = some c ∧ P n.server c
  | _, _ => False

/-- The client waits, nothing is in flight and no callback changes anything. -/
structure Stuck (F : Bytes) (n : Net) : Prop where
  waiting : n.client.psc.state = .waitConfirm ∨ n.client.psc.state = .transfer
  toServer : n.toServer = []
  toClient : n.toClient = []
  no_effect : ∀ e c, (network F).step (.up n) e c → c = .up n

theorem serverStep_of_serverCallOf {F : Bytes} {n t : Net} {e : NetEvent} {c : ServerCall}
    (hcall : n.serverCallOf e = some c) (h : n.step F e = some t) :
    serverStep F n.server c = some t.server := by
  cases e with
  | clientWriteable | clientFragment | clientReceive => cases hcall
  | serverWriteable io =>
      obtain rfl := Option.some.inj hcall
      obtain ⟨server, hserver, rfl⟩ := Option.map_eq_some_iff.mp h
      exact hserver
  | serverReceive io =>
      cases hto : n.toServer with
      | nil => simp [Net.serverCallOf, hto] at hcall
      | cons w rest =>
          simp only [Net.serverCallOf, hto, List.head?_cons, Option.map_some,
            Option.some.injEq] at hcall
          subst hcall
          simp only [Net.step, hto] at h
          obtain ⟨server, hserver, rfl⟩ := Option.map_eq_some_iff.mp h
          exact hserver

theorem not_up_of_failure {F : Bytes} {c d : Config} {e : NetEvent}
    (hstep : (network F).step c e d) (hfails : OnServer Fails c e)
    (hsilent : ¬OnServer (Silent F) c e) (n : Net) : d ≠ .up n := by
  cases c with
  | down | exited => cases hstep
  | up m =>
      obtain ⟨call, hcall, hfails⟩ := hfails
      obtain ⟨t, ht, rfl⟩ := Option.map_eq_some_iff.mp hstep
      have hloud : ¬Silent F m.server call := fun h ↦ hsilent ⟨call, hcall, h⟩
      have hclosed := (closed_of_fails (serverStep_of_serverCallOf hcall ht) hfails hloud).1
      intro heq
      have hup : ¬(t.client.closed = true ∨ t.server.closed = true) := by
        intro h
        simp only [Net.settle, if_pos h] at heq
        split at heq <;> cases heq
      exact hup (.inr hclosed)

theorem stuck_of_error {F : Bytes} {n : Net} (hup : n.Up)
    (hclient : n.client.psc.state = .transfer) (hserver : n.server.pss.state = .error)
    (hto : n.toServer = []) (hfrom : n.toClient = []) : Stuck F n := by
  refine ⟨.inr hclient, hto, hfrom, fun e c hstep ↦ ?_⟩
  obtain ⟨t, ht, rfl⟩ := Option.map_eq_some_iff.mp hstep
  suffices heq : t = n by rw [heq, hup.settle]
  cases e with
  | clientFragment | clientReceive => simp [Net.step, hfrom] at ht
  | serverReceive => simp [Net.step, hto] at ht
  | clientWriteable io =>
      obtain ⟨client, hcall, rfl⟩ := Option.map_eq_some_iff.mp ht
      obtain ⟨-, htrans⟩ := clientTransition_of_step hcall
      have hidle : client = n.client := by
        cases htrans with
        | requested _ hstate | requestFailed _ hstate | started _ hstate
        | startFailed _ hstate => simp [hclient] at hstate
        | confirmed hreason | rejected hreason | stored hreason | finished hreason
        | unexpected hreason => cases hreason
        | idle =>
            have hopen := hup.client
            cases hn : n.client
            simp_all
      simp [hidle]
  | serverWriteable io =>
      obtain ⟨server, hcall, rfl⟩ := Option.map_eq_some_iff.mp ht
      obtain ⟨-, htrans⟩ := serverTransition_of_step hcall
      have hidle : server = n.server := by
        cases htrans with
        | headerRefused hreason | headerAccepted hreason | started hreason
        | notOpened hreason | ignored hreason => cases hreason
        | replied _ hstate | replyFailed _ hstate | sent _ hstate | sendFailed _ hstate =>
            simp [hserver] at hstate
        | idle => rfl
      simp [hidle]

/-- Every failure of the run is reported. -/
def FailuresReported (F : Bytes) (es : List ServerCall) (s : ServerRun) : Prop :=
  ∀ u c v, (serverSession F).Passes .start es s u c v → Fails u c → Reported F u c v

/-- The client gets to know of every failure of the server. -/
structure FailuresReachClient (F : Bytes) : Prop where
  reported : ∀ es s, (serverSession F).Run .start es s → FailuresReported F es s
  not_stuck : ∀ es n u e v, (network F).Passes (.up .start) es (.up n) u e v →
    OnServer Fails u e → ¬Stuck F n

/-- In a session all failures are reported exactly when none is silent, and
in a network without silent failures no failure leaves the client stuck. -/
theorem failures_reported_iff_not_silent (F : Bytes) :
    (∀ es s, (serverSession F).Run .start es s →
      (FailuresReported F es s ↔
        ∀ u c v, (serverSession F).Passes .start es s u c v → ¬Silent F u c)) ∧
      ∀ es n, (∀ u e v, (network F).Passes (.up .start) es (.up n) u e v →
          ¬OnServer (Silent F) u e) →
        ∀ u e v, (network F).Passes (.up .start) es (.up n) u e v →
          OnServer Fails u e → ¬Stuck F n := by
  constructor
  · intro es s _
    constructor
    · intro h u c v hpass hsilent
      exact (reported_iff_not_silent hpass.step hsilent.fails).mp
        (h u c v hpass hsilent.fails) hsilent
    · intro h u c v hpass hfails
      exact (reported_iff_not_silent hpass.step hfails).mpr (h u c v hpass)
  · intro es n hloud u e v hpass hfails _
    have hdown := not_up_of_failure hpass.step hfails (hloud u e v hpass)
    obtain ⟨pre, post, -, -, hpost⟩ := hpass.split
    refine hdown n (hpost.eq_of_terminal fun e' d hstep ↦ ?_).symm
    cases v with
    | down | exited => cases hstep
    | up m => exact hdown m rfl

/-- `testfile.bin` is missing. -/
theorem client_stuck_without_testfile : ¬FailuresReachClient [] := by
  intro h
  let events : List NetEvent :=
    [.clientWriteable .ok, .serverReceive .ok, .serverWriteable .ok, .clientReceive .ok,
      .clientWriteable .ok]
  let missing : ServerIo := { ServerIo.ok with fopen := false }
  have hreplay : ∃ c, (network []).Run (.up .start) events c ∧ c.UpWith fun m ↦
      m.server.pss.state = .waitStart ∧ m.toServer ≠ [] ∧
        (m.step [] (.serverReceive missing)).any fun n ↦
          (n.client.closed = false ∧ n.client.exited = false ∧ n.server.closed = false) ∧
            n.client.psc.state = .transfer ∧ n.server.pss.state = .error ∧ n.toServer = [] ∧
              n.toClient = [] := by
    apply Lts.exists_run_of_replay
    decide +kernel
  obtain ⟨c, hrun, hm⟩ := hreplay
  obtain ⟨m, rfl, hwait, hne, hany⟩ := Config.upWith_iff.mp hm
  obtain ⟨n, hn, hend⟩ := (Option.any_eq_true _ _).mp hany
  obtain ⟨⟨hopen, hrunning, hserver⟩, hclient, herror, hto, hfrom⟩ := of_decide_eq_true hend
  have hup : n.Up := ⟨hopen, hrunning, hserver⟩
  have hstep : (network []).step (.up m) (.serverReceive missing) (.up n) := by
    simp [network, Lts.ofStep, Config.step, hn, hup.settle]
  obtain ⟨w, rest, hlist⟩ := List.exists_cons_of_ne_nil hne
  have hfails : OnServer Fails (.up m) (.serverReceive missing) :=
    ⟨⟨.receive, w.payload, missing⟩, by simp [Net.serverCallOf, hlist], .open rfl hwait rfl⟩
  have hpass : (network []).Passes (.up .start) (events ++ [.serverReceive missing]) (.up n)
      (.up m) (.serverReceive missing) (.up n) :=
    ⟨hstep, events, [], rfl, hrun, .nil⟩
  exact h.not_stuck _ n _ _ _ hpass hfails (stuck_of_error hup hclient herror hto hfrom)

end EsNotebook.FileTransfer
