import EsNotebook.FileTransfer.Client
import EsNotebook.FileTransfer.Server

/-!
# Open files

The server opens `testfile.bin` when the transfer starts and the client opens
its output file when it asks for it.  The handles of a session are accounted
for by the list of its `fopen` and `fclose` calls.  The server calls `fclose`
nowhere, the client only where its byte counter reaches the expected count.
-/

namespace EsNotebook.FileTransfer

/-- A successful `fopen`, or an `fclose`. -/
inductive FileCall where
  | fopen
  | fclose
  deriving DecidableEq, Repr

/-- Every file is closed once, after it has been opened. -/
structure ReleasesFiles (calls : List FileCall) : Prop where
  balanced : calls.count .fopen = calls.count .fclose
  opened_first : ∀ pre, pre <+: calls → pre.count .fclose ≤ pre.count .fopen

/-- The handles that are left open. -/
def openHandles (calls : List FileCall) : ℤ :=
  calls.count .fopen - calls.count .fclose

def serverFileCalls (s : ServerRun) (c : ServerCall) : List FileCall :=
  match c.reason, s.pss.state with
  | .receive, .waitStart => if c.io.fopen then [.fopen] else []
  | _, _ => []

def clientFileCalls (s : ClientRun) (c : ClientCall) : List FileCall :=
  match c.reason, s.psc.state with
  | .writeable, .confirmed => if c.io.fopen then [.fopen] else []
  | .receive, .transfer =>
      if s.psc.bytes + BitVec.ofNat 32 c.inp.length = expectedBytes then [.fclose] else []
  | _, _ => []

/-- The file calls of a session, in order. -/
def serverFiles (F : Bytes) (es : List ServerCall) : List FileCall :=
  Lts.outputs (serverStep F) serverFileCalls .start es

def clientFiles (es : List ClientCall) : List FileCall :=
  Lts.outputs clientStep clientFileCalls .start es

/-! ## The server -/

/-- A call that opens `testfile.bin`. -/
structure OpensTestfile (s : ServerRun) (c : ServerCall) : Prop where
  reason : c.reason = .receive
  state : s.pss.state = .waitStart
  fopen : c.io.fopen = true

theorem mem_serverFileCalls_iff {s : ServerRun} {c : ServerCall} {x : FileCall} :
    x ∈ serverFileCalls s c ↔ x = .fopen ∧ OpensTestfile s c := by
  unfold serverFileCalls
  split
  case h_1 hreason hstate =>
    by_cases hopen : c.io.fopen = true
    · have hopens : OpensTestfile s c := ⟨hreason, hstate, hopen⟩
      simp [hopen, hopens]
    · have hno : ¬OpensTestfile s c := fun h ↦ hopen h.fopen
      simp [hopen, hno]
  case h_2 hother =>
    have hno : ¬OpensTestfile s c := fun h ↦ hother h.reason h.state
    simp [hno]

theorem fclose_notMem_serverFiles {F : Bytes} {es : List ServerCall} {s : ServerRun}
    (hrun : (serverSession F).Run .start es s) : FileCall.fclose ∉ serverFiles F es := by
  intro hmem
  obtain ⟨u, c, v, -, hcall⟩ := (Lts.mem_outputs_iff hrun).mp hmem
  simp [mem_serverFileCalls_iff] at hcall

theorem fopen_notMem_serverFiles_iff {F : Bytes} {es : List ServerCall} {s : ServerRun}
    (hrun : (serverSession F).Run .start es s) : FileCall.fopen ∉ serverFiles F es ↔
      ∀ u c v, (serverSession F).Passes .start es s u c v → ¬OpensTestfile u c := by
  have hmem := Lts.mem_outputs_iff (g := serverFileCalls) hrun (x := .fopen)
  simp only [mem_serverFileCalls_iff, true_and] at hmem
  rw [serverFiles, hmem]
  simp only [not_exists, not_and]
  rfl

/-- Without an `fclose`, files are released only if none is opened. -/
theorem releasesFiles_iff_of_no_fclose {calls : List FileCall}
    (h : FileCall.fclose ∉ calls) : ReleasesFiles calls ↔ FileCall.fopen ∉ calls := by
  have hzero := List.count_eq_zero.mpr h
  constructor
  · intro hreleased
    apply List.count_eq_zero.mp
    rw [hreleased.balanced, hzero]
  · intro hno
    refine ⟨by rw [hzero, List.count_eq_zero.mpr hno], ?_⟩
    intro pre hpre
    have hle := hpre.sublist.count_le FileCall.fclose
    omega

theorem openHandles_eq_zero_iff_of_no_fclose {calls : List FileCall}
    (h : FileCall.fclose ∉ calls) : openHandles calls = 0 ↔ FileCall.fopen ∉ calls := by
  rw [openHandles, List.count_eq_zero.mpr h, ← List.count_eq_zero]
  omega

/-! ## The client -/

/-- A call that opens the output file. -/
structure OpensOutput (s : ClientRun) (c : ClientCall) : Prop where
  reason : c.reason = .writeable
  state : s.psc.state = .confirmed
  fopen : c.io.fopen = true

/-- The fragment with which the byte counter reaches the expected count. -/
structure ReachesCount (s : ClientRun) (c : ClientCall) : Prop where
  reason : c.reason = .receive
  state : s.psc.state = .transfer
  count : s.psc.bytes + BitVec.ofNat 32 c.inp.length = expectedBytes

theorem clientFileCalls_of_opensOutput {s : ClientRun} {c : ClientCall}
    (h : OpensOutput s c) : clientFileCalls s c = [.fopen] := by
  simp [clientFileCalls, h.reason, h.state, h.fopen]

theorem clientFileCalls_of_reachesCount {s : ClientRun} {c : ClientCall}
    (h : ReachesCount s c) : clientFileCalls s c = [.fclose] := by
  simp [clientFileCalls, h.reason, h.state, h.count]

theorem clientFileCalls_eq_nil {s : ClientRun} {c : ClientCall} (hopens : ¬OpensOutput s c)
    (hreaches : ¬ReachesCount s c) : clientFileCalls s c = [] := by
  unfold clientFileCalls
  split
  case h_1 hreason hstate =>
    exact if_neg fun hopen ↦ hopens ⟨hreason, hstate, hopen⟩
  case h_2 hreason hstate =>
    exact if_neg fun hcount ↦ hreaches ⟨hreason, hstate, hcount⟩
  case h_3 => rfl

theorem fopen_mem_clientFileCalls_iff {s : ClientRun} {c : ClientCall} :
    FileCall.fopen ∈ clientFileCalls s c ↔ OpensOutput s c := by
  by_cases hopens : OpensOutput s c
  · simp [clientFileCalls_of_opensOutput hopens, hopens]
  · by_cases hreaches : ReachesCount s c
    · simp [clientFileCalls_of_reachesCount hreaches, hopens]
    · simp [clientFileCalls_eq_nil hopens hreaches, hopens]

theorem fclose_mem_clientFileCalls_iff {s : ClientRun} {c : ClientCall} :
    FileCall.fclose ∈ clientFileCalls s c ↔ ReachesCount s c := by
  by_cases hreaches : ReachesCount s c
  · simp [clientFileCalls_of_reachesCount hreaches, hreaches]
  · by_cases hopens : OpensOutput s c
    · simp [clientFileCalls_of_opensOutput hopens, hreaches]
    · simp [clientFileCalls_eq_nil hopens hreaches, hreaches]

/-- The file calls of a client session so far. -/
inductive FilePhase (s : ClientRun) : List FileCall → Prop
  | unopened (hrunning : s.exited = false)
      (hstate : s.closed = false → s.psc.state ≠ .transfer ∧ s.psc.outfp = .null) :
      FilePhase s []
  | opened (hrunning : s.exited = false)
      (hstate : s.closed = false → s.psc.state = .transfer) : FilePhase s [.fopen]
  | released (hexited : s.exited = true) : FilePhase s [.fopen, .fclose]

/-- Before the file is open a call opens it or leaves the session without one. -/
theorem filePhase_step_unopened {s t : ClientRun} {c : ClientCall}
    (hstate : s.psc.state ≠ .transfer ∧ s.psc.outfp = .null) (h : ClientTransition s c t)
    (hrunning : s.exited = false) : FilePhase t (clientFileCalls s c) := by
  have hreaches : ¬ReachesCount s c := fun hreaches ↦ hstate.1 hreaches.state
  by_cases hopens : OpensOutput s c
  · rw [clientFileCalls_of_opensOutput hopens]
    have hnot := hopens.reason
    have hconf := hopens.state
    cases h with
    | started => exact .opened rfl fun _ ↦ rfl
    | startFailed _ _ _ _ hclosed hexited =>
        exact .opened hexited fun hopen ↦ by simp [hclosed] at hopen
    | requested _ hconn | requestFailed _ hconn => simp [hconf] at hconn
    | confirmed hreason | rejected hreason | stored hreason | finished hreason
    | unexpected hreason => simp [hnot] at hreason
    | idle _ hidle => exact absurd hconf (hidle hnot).2
  · rw [clientFileCalls_eq_nil hopens hreaches]
    cases h with
    | requested | confirmed => exact .unopened rfl fun _ ↦ ⟨by simp, hstate.2⟩
    | requestFailed _ _ _ _ hclosed hexited | startFailed _ _ _ _ hclosed hexited =>
        exact .unopened hexited fun hopen ↦ by simp [hclosed] at hopen
    | started hreason hconf hopen => exact absurd ⟨hreason, hconf, hopen⟩ hopens
    | rejected => exact .unopened rfl nofun
    | stored _ htransfer | finished _ htransfer => exact absurd htransfer hstate.1
    | unexpected => exact .unopened hrunning fun _ ↦ hstate
    | idle => exact .unopened hrunning fun _ ↦ hstate

/-- During the transfer the file stays open until the count is reached. -/
theorem filePhase_step_opened {s t : ClientRun} {c : ClientCall}
    (hstate : s.psc.state = .transfer) (h : ClientTransition s c t)
    (hrunning : s.exited = false) : FilePhase t (.fopen :: clientFileCalls s c) := by
  have hopens : ¬OpensOutput s c := by
    rintro ⟨-, hconf, -⟩
    simp [hstate] at hconf
  by_cases hreaches : ReachesCount s c
  · rw [clientFileCalls_of_reachesCount hreaches]
    have hreason := hreaches.reason
    cases h with
    | finished => exact .released rfl
    | stored _ _ _ hmore => exact absurd hreaches.count hmore
    | confirmed _ hwait | rejected _ hwait => simp [hstate] at hwait
    | unexpected _ _ htransfer => exact absurd hstate htransfer
    | requested hwrite | requestFailed hwrite | started hwrite | startFailed hwrite =>
        simp [hreason] at hwrite
    | idle hnot => exact absurd hreason hnot
  · rw [clientFileCalls_eq_nil hopens hreaches]
    cases h with
    | stored => exact .opened rfl fun _ ↦ hstate
    | finished hreason _ _ hlast => exact absurd ⟨hreason, hstate, hlast⟩ hreaches
    | requested _ hother | requestFailed _ hother | started _ hother | startFailed _ hother
    | confirmed _ hother | rejected _ hother => simp [hstate] at hother
    | unexpected _ _ htransfer => exact absurd hstate htransfer
    | idle => exact .opened hrunning fun _ ↦ hstate

theorem filePhase_of_run {es : List ClientCall} {s : ClientRun}
    (h : clientSession.Run .start es s) : FilePhase s (clientFiles es) := by
  induction h with
  | nil => exact .unopened rfl fun _ ↦ ⟨by simp [ClientRun.start], rfl⟩
  | @snoc es s t c hrun hstep ih =>
      obtain ⟨⟨hopen, hrunning⟩, htrans⟩ := clientTransition_of_step hstep
      have hsnoc : clientFiles (es ++ [c]) = clientFiles es ++ clientFileCalls s c :=
        Lts.outputs_snoc hrun
      rw [hsnoc]
      generalize hcalls : clientFiles es = calls at ih
      cases ih with
      | unopened _ hstate => exact filePhase_step_unopened (hstate hopen) htrans hrunning
      | opened _ hstate => exact filePhase_step_opened (hstate hopen) htrans hrunning
      | released hexited => simp [hrunning] at hexited

theorem opensOutput_passed_iff {es : List ClientCall} {s : ClientRun}
    (hrun : clientSession.Run .start es s) : FileCall.fopen ∈ clientFiles es ↔
      ∃ u c v, clientSession.Passes .start es s u c v ∧ OpensOutput u c := by
  have hmem := Lts.mem_outputs_iff (g := clientFileCalls) hrun (x := .fopen)
  simp only [fopen_mem_clientFileCalls_iff] at hmem
  exact hmem

theorem reachesCount_passed_iff {es : List ClientCall} {s : ClientRun}
    (hrun : clientSession.Run .start es s) : FileCall.fclose ∈ clientFiles es ↔
      ∃ u c v, clientSession.Passes .start es s u c v ∧ ReachesCount u c := by
  have hmem := Lts.mem_outputs_iff (g := clientFileCalls) hrun (x := .fclose)
  simp only [fclose_mem_clientFileCalls_iff] at hmem
  exact hmem

theorem releasesFiles_nil : ReleasesFiles [] :=
  ⟨rfl, fun pre hpre ↦ by simp [List.prefix_nil.mp hpre]⟩

theorem releasesFiles_opened_closed : ReleasesFiles [.fopen, .fclose] := by
  refine ⟨rfl, fun pre hpre ↦ ?_⟩
  obtain ⟨tail, htail⟩ := hpre
  match pre with
  | [] => simp
  | [x] => simp_all
  | [x, y] => simp_all
  | x :: y :: z :: zs => simp at htail

/-- A session of the server releases its files exactly when it opens none, and
the process holds no handle exactly when no session opens one.  A session of
the client that has ended has released its file exactly when it opened none
or was given the last byte that its counter expects. -/
theorem files_released_iff (F : Bytes) :
    (∀ es s, (serverSession F).Run .start es s →
      (ReleasesFiles (serverFiles F es) ↔
        ∀ u c v, (serverSession F).Passes .start es s u c v → ¬OpensTestfile u c)) ∧
    (∀ sessions : List (List ServerCall),
      (∀ es ∈ sessions, ∃ s, (serverSession F).Run .start es s) →
      (openHandles (sessions.flatMap (serverFiles F)) = 0 ↔
        ∀ es ∈ sessions, ∀ s u c v, (serverSession F).Passes .start es s u c v →
          ¬OpensTestfile u c)) ∧
    ∀ es s, clientSession.Run .start es s → (s.closed = true ∨ s.exited = true) →
      (ReleasesFiles (clientFiles es) ↔
        (∀ u c v, clientSession.Passes .start es s u c v → ¬OpensOutput u c) ∨
          ∃ u c v, clientSession.Passes .start es s u c v ∧ ReachesCount u c) := by
  refine ⟨?_, ?_, ?_⟩
  · intro es s hrun
    rw [releasesFiles_iff_of_no_fclose (fclose_notMem_serverFiles hrun),
      fopen_notMem_serverFiles_iff hrun]
  · intro sessions hruns
    have hno : FileCall.fclose ∉ sessions.flatMap (serverFiles F) := by
      intro hmem
      obtain ⟨es, hes, hcall⟩ := List.mem_flatMap.mp hmem
      obtain ⟨s, hrun⟩ := hruns es hes
      exact fclose_notMem_serverFiles hrun hcall
    rw [openHandles_eq_zero_iff_of_no_fclose hno]
    simp only [List.mem_flatMap, not_exists, not_and]
    apply forall₂_congr
    intro es hes
    obtain ⟨s, hrun⟩ := hruns es hes
    rw [fopen_notMem_serverFiles_iff hrun]
    constructor
    · intro h s' u c v hpass
      obtain rfl := Lts.run_ofStep_unique hrun hpass.run
      exact h u c v hpass
    · intro h u c v
      exact h s u c v
  · intro es s hrun hended
    have hopened := opensOutput_passed_iff hrun
    have hreached := reachesCount_passed_iff hrun
    have hnever : (∀ u c v, clientSession.Passes .start es s u c v → ¬OpensOutput u c) ↔
        FileCall.fopen ∉ clientFiles es := by
      rw [hopened]
      simp only [not_exists, not_and]
    rw [hnever, ← hreached]
    have hphase := filePhase_of_run hrun
    generalize clientFiles es = calls at hphase ⊢
    cases hphase with
    | unopened => simp [releasesFiles_nil]
    | opened =>
        have hleft : ¬ReleasesFiles [.fopen] := fun h ↦ by simpa using h.balanced
        simp [hleft]
    | released => simp [releasesFiles_opened_closed]

/-- The handshake of an ordinary client leaves the file of the server open,
and nothing that the server does later closes it. -/
theorem testfile_left_open :
    ¬∀ F es s, (serverSession F).Run .start es s → ReleasesFiles (serverFiles F es) := by
  intro h
  obtain ⟨s, hs⟩ : ∃ s, handshakeCalls.foldlM (serverStep []) ServerRun.start = some s :=
    Option.isSome_iff_exists.mp (by decide +kernel)
  have hcalls : serverFiles [] handshakeCalls = [.fopen] := by decide +kernel
  have hreleased := h [] handshakeCalls s (Lts.run_ofStep_iff.mpr hs)
  rw [hcalls] at hreleased
  exact absurd hreleased.balanced (by decide)

end EsNotebook.FileTransfer
