import EsNotebook.FileTransfer.Integrity

/-!
# When the client finishes

The end of the file is not signalled on the wire: the client stops when its
byte counter shows 83762340.  It therefore finishes exactly when the file
has arrived for files of that length and for no other.
-/

namespace EsNotebook.FileTransfer

/-- The file length that `expectedBytes` stands for. -/
def expectedLength : ℕ := 83762340

/-- Every `lws_write` of the event queues its payload, and no read fails. -/
def AllSucceed (F : Bytes) : Config → NetEvent → Prop
  | .up n, .clientWriteable io =>
      ∀ w ∈ (clientWriteable io n.client.psc).write, w.Queued io.lwsWrite
  | .up n, .serverWriteable io =>
      io.freadError = none ∧
        ∀ o ∈ serverWriteable F io n.server.pss, ∀ w ∈ o.write, w.Queued io.lwsWrite
  | _, .serverWriteable io => io.freadError = none
  | _, _ => True

theorem noReadError_of_allSucceed {F : Bytes} (c : Config) (e : NetEvent)
    (h : AllSucceed F c e) : e.NoReadError := by
  cases e with
  | serverWriteable io =>
      cases c with
      | up n => exact h.1
      | down => exact h
      | exited => exact h
  | clientWriteable | clientFragment | clientReceive | serverReceive => exact trivial

def reliableNetwork (F : Bytes) : Lts Config NetEvent :=
  (network F).restrict (AllSucceed F)

/-- The client leaves the transfer state exactly when all of the file has
been stored, and never waits for more once the server is done and nothing is
in flight. -/
def FinishesExactly (F : Bytes) : Prop :=
  (∀ n, (reliableNetwork F).Reachable (.exited n) → n.written = F) ∧
    (∀ n, (reliableNetwork F).Reachable (.up n) → n.client.psc.state = .transfer →
      n.written.length < F.length) ∧
    ∀ n, (reliableNetwork F).Reachable (.up n) →
      ¬(n.server.pss.state = .done ∧ n.toServer = [] ∧ n.toClient = [] ∧
        n.client.psc.state = .transfer ∧ n.client.psc.outfp = .opened n.written)

theorem integrity_of_reachable {F : Bytes} {c : Config}
    (h : (reliableNetwork F).Reachable c) : TransferIntegrity F c := by
  obtain ⟨p, hp, hR⟩ := (network_simulates_pipe F).reachable (Lts.Reachable.of_restrict h)
  exact transferIntegrity_of_pipeRel hp hR

theorem netPhase_of_reachable {F : Bytes} {n : Net}
    (h : (reliableNetwork F).Reachable (.up n)) : n.Up ∧ NetPhase F n :=
  netPhase_of_network (Lts.Reachable.of_restrict h)

theorem bytes_of_exited {F : Bytes} {n : Net}
    (h : (reliableNetwork F).Reachable (.exited n)) :
    BitVec.ofNat 32 n.written.length = expectedBytes := by
  obtain ⟨p, _, _, hbytes, _⟩ :=
    (network_simulates_pipe F).reachable (Lts.Reachable.of_restrict h)
  exact hbytes

theorem written_length_le {F : Bytes} {n : Net}
    (h : n.written ++ n.inFlight = F.take n.position) : n.written.length ≤ F.length := by
  have hlen := congrArg List.length h
  simp only [List.length_append, List.length_take] at hlen
  omega

/-- Below 2^32 the counter shows the expected value only at that length. -/
theorem length_eq_of_expectedBytes {k : ℕ} (hk : k < 2 ^ 32) :
    BitVec.ofNat 32 k = expectedBytes ↔ k = expectedLength := by
  constructor
  · intro h
    have hnat := congrArg BitVec.toNat h
    simp only [expectedBytes, BitVec.toNat_ofNat] at hnat
    rw [Nat.mod_eq_of_lt hk] at hnat
    exact hnat
  · rintro rfl
    rfl

theorem written_length_ne {F : Bytes} {n : Net} (h : NetPhase F n)
    (hstate : n.client.psc.state = .transfer) : n.written.length ≠ expectedLength := by
  cases h with
  | transferring h =>
      rintro heq
      refine h.unfinished ?_
      rw [h.bytes, heq]
      rfl
  | starting hu => simp [hu.written, expectedLength]
  | connected _ hc | requested _ hc | accepted _ hc | replied _ hc | confirmed _ hc =>
      simp [hc] at hstate

theorem position_of_done {F : Bytes} {n : Net} (h : (reliableNetwork F).Reachable (.up n))
    (hdone : n.server.pss.state = .done) : n.position = F.length := by
  have hphase := sessionPhase_of_reachable (server_reachable noReadError_of_allSucceed h)
  simp only [SessionPhase, hdone] at hphase
  simp [Net.position, hphase.2]

/-- With nothing in flight, a server that is done leaves all of the file with
the client. -/
theorem written_of_done {F : Bytes} {n : Net} (h : (reliableNetwork F).Reachable (.up n))
    (hdone : n.server.pss.state = .done) (hempty : n.toClient = []) : n.written = F := by
  have hread := (integrity_of_reachable h).2.read
  rw [inFlight_nil hempty, position_of_done h hdone] at hread
  simpa using hread

theorem finishesExactly_of_length {F : Bytes} (hlen : F.length = expectedLength) :
    FinishesExactly F := by
  have hbefore : ∀ n, (reliableNetwork F).Reachable (.up n) →
      n.client.psc.state = .transfer → n.written.length < F.length := by
    intro n h hstate
    have hle := written_length_le (integrity_of_reachable h).2.read
    have hne := written_length_ne (netPhase_of_reachable h).2 hstate
    omega
  refine ⟨?_, hbefore, ?_⟩
  · intro n h
    have hread := (integrity_of_reachable h).read
    have hle := written_length_le hread
    have hbound : n.written.length < 2 ^ 32 := by
      simp only [expectedLength] at hlen
      omega
    have hall : n.written.length = F.length :=
      ((length_eq_of_expectedBytes hbound).mp (bytes_of_exited h)).trans hlen.symm
    have hpre : n.written <+: F :=
      List.IsPrefix.trans ⟨n.inFlight, hread⟩ (List.take_prefix _ _)
    exact hpre.eq_of_length hall
  · rintro n h ⟨hdone, _, hempty, hstate, _⟩
    have hlt := hbefore n h hstate
    rw [written_of_done h hdone hempty] at hlt
    exact lt_irrefl _ hlt

/-! ## Driving the network to the end of the file -/

/-- A client that stores, a server that has opened the file, and room below
the expected length. -/
structure Draining (F : Bytes) (n : Net) : Prop where
  reachable : (reliableNetwork F).Reachable (.up n)
  up : n.Up
  transferring : n.Transferring F
  server : n.server.pss.state = .transfer ∨ n.server.pss.state = .done
  below : n.written.length < expectedLength

/-- What is still to be done: bytes to read count three times, bytes in
flight twice, messages and the end of the file once. -/
def work (F : Bytes) (n : Net) : ℕ :=
  3 * (F.length - n.position) + 2 * n.inFlight.length + n.toClient.length +
    if n.server.pss.state = .transfer then 2 else 0

/-- The two ways in which a drained network shows its end. -/
def Drained (F : Bytes) : Prop :=
  (∃ n, (reliableNetwork F).Reachable (.exited n) ∧ n.written.length = expectedLength) ∨
    ∃ n, (reliableNetwork F).Reachable (.up n) ∧ n.server.pss.state = .done ∧
      n.toServer = [] ∧ n.toClient = [] ∧ n.client.psc.state = .transfer ∧
        n.client.psc.outfp = .opened n.written

theorem transferring_of_netPhase {F : Bytes} {n : Net} (h : NetPhase F n)
    (hserver : n.server.pss.state = .transfer ∨ n.server.pss.state = .done) :
    n.Transferring F := by
  cases h with
  | transferring h => exact h
  | connected _ _ hs | requested _ _ hs | accepted _ _ hs | replied _ _ hs
  | confirmed _ _ hs => simp [hs] at hserver
  | starting _ _ _ hs => simp [hs] at hserver

/-- The events of an environment in which every call succeeds. -/
def NetEvent.Ok : NetEvent → Prop
  | .clientWriteable io | .clientFragment _ io | .clientReceive io => io = .ok
  | .serverWriteable io | .serverReceive io => io = .ok

theorem queued_ok {w : LwsWrite} (h : w.payload.length ≤ 10000) :
    w.Queued (10000 : BitVec 32) := by
  have hint : (10000 : BitVec 32).toInt = 10000 := rfl
  simp only [LwsWrite.Queued, hint]
  omega

theorem clientWriteable_write_length {io : ClientIo} {psc : PerSessionFileClientInfo}
    {w : LwsWrite} (h : w ∈ (clientWriteable io psc).write) : w.payload.length = 296 := by
  unfold clientWriteable at h
  split at h
  · split at h <;> obtain rfl := Option.some.inj h <;> exact requestWrite_payload_length
  · split at h
    · dsimp only at h
      split at h <;> obtain rfl := Option.some.inj h <;> exact startWrite_payload_length io
    · cases h
  · cases h

theorem serverWriteable_write_length {F : Bytes} {io : ServerIo} {pss : PerSessionFileInfo}
    {o : ServerOutcome} {w : LwsWrite} (hread : io.freadError = none)
    (ho : serverWriteable F io pss = some o) (h : w ∈ o.write) :
    w.payload.length ≤ 10000 := by
  unfold serverWriteable at ho
  split at ho
  · dsimp only at ho
    split at ho <;> obtain rfl := Option.some.inj ho <;> obtain rfl := Option.some.inj h <;>
      simp [fssHskHdrSize, FssHeaderHsk.size]
  · obtain ⟨pos, -, ho⟩ := Option.bind_eq_some_iff.mp ho
    have hlen : (fread F pos io.freadError).length ≤ 10000 := by simp [fread, hread]
    dsimp only at ho
    split at ho
    · obtain rfl := Option.some.inj ho
      obtain rfl := Option.some.inj h
      exact hlen
    · split at ho <;> obtain rfl := Option.some.inj ho <;> obtain rfl := Option.some.inj h <;>
        exact hlen
  · obtain rfl := Option.some.inj ho
    cases h

theorem allSucceed_ok {F : Bytes} {c : Config} {e : NetEvent} (h : e.Ok) :
    AllSucceed F c e := by
  cases e with
  | clientFragment | clientReceive | serverReceive => cases c <;> exact trivial
  | clientWriteable io =>
      obtain rfl := h
      cases c with
      | down | exited => exact trivial
      | up n =>
          intro w hw
          exact queued_ok (by simp [clientWriteable_write_length hw])
  | serverWriteable io =>
      obtain rfl := h
      cases c with
      | down | exited => rfl
      | up n =>
          exact ⟨rfl, fun o ho w hw ↦ queued_ok (serverWriteable_write_length rfl ho hw)⟩

theorem reliable_step {F : Bytes} {n t : Net} {e : NetEvent}
    (h : (reliableNetwork F).Reachable (.up n)) (hstep : n.step F e = some t)
    (hcond : AllSucceed F (.up n) e) : (reliableNetwork F).Reachable t.settle := by
  have hnext : (network F).step (.up n) e t.settle := by
    simp only [network, Lts.ofStep, Config.step, hstep, Option.map_some]
  exact h.step ⟨hnext, hcond⟩

theorem exists_delivered {F : Bytes} {n : Net} (hup : n.Up) (hn : n.Transferring F)
    (inp : Bytes) (rest : List LwsWrite) (io : ClientIo) :
    ∃ t, n.deliver .fileContent inp rest io = some t ∧ t.server = n.server ∧
      t.toClient = rest ∧ t.written = n.written ++ inp ∧
        (t.settle = .up t ∨ t.settle = .exited t) := by
  obtain ⟨client, hclient, hwritten, hclosed⟩ : ∃ client,
      clientStep n.client ⟨.receive, inp, io⟩ = some client ∧
        client.psc.outfp.content = n.written ++ inp ∧ client.closed = false := by
    obtain ⟨o, ho, hout, hwrite, hret⟩ : ∃ o, clientReceive n.client.psc inp = some o ∧
        o.psc.outfp.content = n.written ++ inp ∧ o.write = none ∧ o.ret = 0 := by
      simp only [clientReceive, hn.state, hn.outfp]
      split_ifs <;> exact ⟨_, rfl, rfl, rfl, rfl⟩
    refine ⟨_, clientStep_eq_some.mpr ⟨⟨hup.client, hup.running, by simp⟩, o, ho, rfl⟩, ?_, ?_⟩
    · simpa [ClientRun.after, hwrite] using hout
    · simp [ClientRun.after, hwrite, hret]
  refine ⟨_, congrArg (Option.map _) hclient, rfl, rfl, hwritten, ?_⟩
  by_cases hexited : client.exited = true
  · exact .inr (if_pos hexited)
  · exact .inl ((if_neg hexited).trans (if_neg (by simp [hclosed, hup.server])))

/-- Delivering at most one byte leads on, or ends at the expected length. -/
theorem drain_deliver {F : Bytes} {n : Net} (e : NetEvent) (inp : Bytes)
    (rest : List LwsWrite) (io : ClientIo) (hn : Draining F n)
    (hstep : n.step F e = n.deliver .fileContent inp rest io)
    (hcond : AllSucceed F (.up n) e) (hshort : inp.length ≤ 1)
    (hwork : ∀ t : Net, t.toClient = rest → t.server = n.server → work F t < work F n)
    (ih : ∀ t, work F t < work F n → Draining F t → Drained F) : Drained F := by
  obtain ⟨t, hdeliver, hserver, hrest, hwritten, hsettle⟩ :=
    exists_delivered hn.up hn.transferring inp rest io
  have hreach := reliable_step hn.reachable (hstep.trans hdeliver) hcond
  have hlen : t.written.length ≤ expectedLength := by
    have hbelow := hn.below
    rw [hwritten, List.length_append]
    omega
  rcases hsettle with hsettle | hsettle
  · rw [hsettle] at hreach
    obtain ⟨hup, hphase⟩ := netPhase_of_reachable hreach
    have htransfer := transferring_of_netPhase hphase (hserver ▸ hn.server)
    have hne := written_length_ne hphase htransfer.state
    exact ih t (hwork t hrest hserver)
      ⟨hreach, hup, htransfer, hserver ▸ hn.server, lt_of_le_of_ne hlen hne⟩
  · rw [hsettle] at hreach
    have hbound : t.written.length < 2 ^ 32 := by
      simp only [expectedLength] at hlen
      omega
    exact .inl ⟨t, hreach, (length_eq_of_expectedBytes hbound).mp (bytes_of_exited hreach)⟩

theorem work_lt_of_deliver {F : Bytes} {n t : Net} (hserver : t.server = n.server)
    (hless : t.inFlight.length < n.inFlight.length ∧ t.toClient.length ≤ n.toClient.length ∨
      t.inFlight.length ≤ n.inFlight.length ∧ t.toClient.length < n.toClient.length) :
    work F t < work F n := by
  have hpos : t.position = n.position := by simp [Net.position, hserver]
  simp only [work, hserver, hpos]
  omega

theorem drain_message {F : Bytes} {n : Net} {w : LwsWrite} {rest : List LwsWrite}
    (hn : Draining F n) (hfrom : n.toClient = w :: rest)
    (ih : ∀ t, work F t < work F n → Draining F t → Drained F) : Drained F := by
  have hsite : w.site = .fileContent := hn.transferring.toClient w (by simp [hfrom])
  have hflight : n.inFlight =
      w.payload ++ ((rest.filter fun v ↦ v.site = .fileContent).map LwsWrite.payload).flatten := by
    simp [Net.inFlight, hfrom, hsite]
  by_cases hlong : 2 ≤ w.payload.length
  · refine drain_deliver (.clientFragment 1 .ok) (w.payload.take 1)
      ({ w with payload := w.payload.drop 1 } :: rest) .ok hn ?_ trivial (by simp) ?_ ih
    · simp [Net.step, hfrom, hsite]
    · intro t htoClient hserver
      refine work_lt_of_deliver hserver (.inl ⟨?_, by simp [htoClient, hfrom]⟩)
      rw [hflight]
      simp only [Net.inFlight, htoClient, hsite, List.filter_cons, decide_true, if_true,
        List.map_cons, List.flatten_cons, List.length_append, List.length_drop]
      omega
  · refine drain_deliver (.clientReceive .ok) w.payload rest .ok hn ?_ trivial (by omega)
      ?_ ih
    · simp [Net.step, hfrom, hsite]
    · intro t htoClient hserver
      refine work_lt_of_deliver hserver (.inr ⟨?_, by simp [htoClient, hfrom]⟩)
      rw [hflight]
      simp [Net.inFlight, htoClient]

/-- After the server has sent the block `blk` from position `pos`. -/
def Net.sent (n : Net) (pos : ℕ) (blk : Bytes) : Net :=
  { n with
    server :=
      { pss :=
          { n.server.pss with
            fp := some (pos + blk.length)
            state := if blk.length < 10000 then .done else .transfer }
        log := n.server.log ++ [.queued (contentWrite blk)]
        closed := false }
    toClient := n.toClient ++ [contentWrite blk] }

theorem step_send {F : Bytes} {n : Net} {pos : ℕ} (hopen : n.server.closed = false)
    (hstate : n.server.pss.state = .transfer) (hpos : n.server.pss.fp = some pos) :
    n.step F (.serverWriteable .ok) = some (n.sent pos (fread F pos none)) := by
  have hqueued : (contentWrite (fread F pos none)).Queued 10000 :=
    queued_ok (by simp [contentWrite, fread])
  obtain ⟨server, hserver⟩ :
      ∃ server, serverStep F n.server ⟨.serverWriteable, [], .ok⟩ = some server := by
    obtain ⟨o, ho⟩ : ∃ o, serverWriteable F .ok n.server.pss = some o := by
      simp only [serverWriteable, hstate, hpos, Option.bind_eq_bind, Option.bind_some]
      split
      · exact ⟨_, rfl⟩
      · split <;> exact ⟨_, rfl⟩
    exact ⟨_, serverStep_eq_some.mpr ⟨⟨hopen, by simp⟩, o, ho, rfl⟩⟩
  obtain ⟨-, htrans⟩ := serverTransition_of_step hserver
  simp only [Net.step, Net.serverCall, hserver, Option.map_some, Option.some.injEq]
  cases htrans with
  | headerRefused hreason | headerAccepted hreason | started hreason | notOpened hreason
  | ignored hreason => cases hreason
  | replied _ hready | replyFailed _ hready => simp [hready] at hstate
  | idle _ hidle => exact ((hidle rfl).2 hstate).elim
  | @sendFailed pos' _ _ _ hpos' hblock hwrite =>
      obtain rfl : pos = pos' := Option.some.inj (hpos.symm.trans hpos')
      exact (hwrite (hblock ▸ hqueued)).elim
  | @sent pos' blk _ _ hpos' hblock _ =>
      obtain rfl : pos = pos' := Option.some.inj (hpos.symm.trans hpos')
      obtain rfl : blk = fread F pos none := hblock
      simp [Net.sent]

theorem drain_block {F : Bytes} {n : Net} (hn : Draining F n) (hfrom : n.toClient = [])
    (hstate : n.server.pss.state = .transfer)
    (ih : ∀ t, work F t < work F n → Draining F t → Drained F) : Drained F := by
  obtain ⟨pos, hpos, hle⟩ : ∃ pos, n.server.pss.fp = some pos ∧ pos ≤ F.length := by
    rcases hn.transferring.server with ⟨hs, _⟩ | ⟨_, hfp⟩
    · simp [hs] at hstate
    · exact hfp
  have hstep := step_send (F := F) hn.up.server hstate hpos
  have hreach := reliable_step hn.reachable hstep (allSucceed_ok rfl)
  have hbound : (fread F pos none).length ≤ F.length - pos := fread_length_le F pos none
  generalize fread F pos none = blk at hstep hreach hbound
  have hup : (n.sent pos blk).Up := ⟨hn.up.client, hn.up.running, rfl⟩
  rw [hup.settle] at hreach
  have hserver : (n.sent pos blk).server.pss.state = .transfer ∨
      (n.sent pos blk).server.pss.state = .done := by
    by_cases hlast : blk.length < 10000 <;> simp [Net.sent, hlast]
  have hwork : work F (n.sent pos blk) < work F n := by
    have hposition : n.position = pos := by simp [Net.position, hpos]
    have hposition' : (n.sent pos blk).position = pos + blk.length := rfl
    have hflight : (n.sent pos blk).inFlight = blk := by
      have hall := inFlight_append_content n blk
      rw [inFlight_nil hfrom] at hall
      exact hall
    have hone : (n.sent pos blk).toClient.length = 1 := by
      simp [Net.sent, hfrom]
    have hstate' : (n.sent pos blk).server.pss.state =
        if blk.length < 10000 then .done else .transfer := rfl
    simp only [work, hposition, hposition', hflight, hone, hstate', hstate, if_true,
      inFlight_nil hfrom, hfrom, List.length_nil]
    by_cases hlast : blk.length < 10000
    · simp only [hlast, if_true, reduceCtorEq, if_false]
      omega
    · simp only [hlast, if_false, if_true]
      omega
  exact ih _ hwork ⟨hreach, hup,
    transferring_of_netPhase (netPhase_of_reachable hreach).2 hserver, hserver, hn.below⟩

theorem drained_of_draining {F : Bytes} (n : Net) (hn : Draining F n) : Drained F := by
  induction hw : work F n using Nat.strong_induction_on generalizing n with
  | _ k ih =>
      subst hw
      have hnext : ∀ t, work F t < work F n → Draining F t → Drained F :=
        fun t hlt ht ↦ ih _ hlt t ht rfl
      cases hfrom : n.toClient with
      | cons w rest => exact drain_message hn hfrom hnext
      | nil =>
          rcases hn.server with hstate | hdone
          · exact drain_block hn hfrom hstate hnext
          · exact .inr ⟨n, hn.reachable, hdone, hn.transferring.toServer, hfrom,
              hn.transferring.state, hn.transferring.outfp⟩

/-! ## The handshake does not depend on the file -/

theorem Net.step_eq_step_nil {F : Bytes} {n : Net} (e : NetEvent)
    (h : n.server.pss.state ≠ .transfer) : n.step F e = n.step [] e := by
  have hcall (c : ServerCall) (rest : List LwsWrite) :
      n.serverCall F c rest = n.serverCall [] c rest := by
    have hwriteable : serverWriteable F c.io n.server.pss =
        serverWriteable [] c.io n.server.pss := by
      unfold serverWriteable
      split
      · rfl
      · contradiction
      · rfl
    simp only [Net.serverCall, serverStep, callbackFileServer, hwriteable]
  cases e with
  | clientWriteable | clientFragment | clientReceive => rfl
  | serverWriteable io => exact hcall _ _
  | serverReceive io => simp only [Net.step, hcall]

/-- A step of a network that stays up and whose server does not read the file. -/
def quietStep (n : Net) (e : NetEvent) : Option Net :=
  if n.server.pss.state = .transfer then none
  else
    match (n.step [] e).map Net.settle with
    | some (.up t) => some t
    | _ => none

theorem reachable_of_quietReplay {F : Bytes} {n t : Net} {es : List NetEvent}
    (hes : ∀ e ∈ es, e.Ok) (hn : (reliableNetwork F).Reachable (.up n))
    (h : es.foldlM quietStep n = some t) : (reliableNetwork F).Reachable (.up t) := by
  induction es generalizing n with
  | nil =>
      obtain rfl : n = t := by simpa using h
      exact hn
  | cons e es ih =>
      rw [List.foldlM_cons] at h
      obtain ⟨u, hu, hrest⟩ := Option.bind_eq_some_iff.mp h
      refine ih (fun e' he' ↦ hes e' (by simp [he'])) ?_ hrest
      unfold quietStep at hu
      split at hu
      · cases hu
      · rename_i hstate
        split at hu
        · rename_i v hv
          obtain rfl := Option.some.inj hu
          obtain ⟨m, hm, hsettle⟩ := Option.map_eq_some_iff.mp hv
          rw [← hsettle]
          exact reliable_step hn ((Net.step_eq_step_nil e hstate).trans hm)
            (allSucceed_ok (hes e (by simp)))
        · cases hu

/-- Request, reply, start: both sides reach their transfer state. -/
def handshakeEvents : List NetEvent :=
  [.clientWriteable .ok, .serverReceive .ok, .serverWriteable .ok, .clientReceive .ok,
    .clientWriteable .ok, .serverReceive .ok]

theorem exists_ready (F : Bytes) : ∃ n, (reliableNetwork F).Reachable (.up n) ∧
    n.server.pss.state = .transfer ∧ n.server.pss.fp = some 0 ∧ n.toClient = [] ∧
      n.written = [] := by
  have hreplay : (handshakeEvents.foldlM quietStep .start).any (fun n ↦
      decide (n.server.pss.state = .transfer ∧ n.server.pss.fp = some 0 ∧ n.toClient = [] ∧
        n.written = [])) = true := by
    decide +kernel
  obtain ⟨n, hn, hready⟩ := (Option.any_eq_true _ _).mp hreplay
  have hok : ∀ e ∈ handshakeEvents, e.Ok := by
    simp [handshakeEvents, NetEvent.Ok]
  exact ⟨n, reachable_of_quietReplay hok (.of_init rfl) hn, of_decide_eq_true hready⟩

theorem exists_draining (F : Bytes) : ∃ n, Draining F n := by
  obtain ⟨n, hreach, hserver, -, -, hwritten⟩ := exists_ready F
  have hphase := netPhase_of_reachable hreach
  refine ⟨n, hreach, hphase.1, transferring_of_netPhase hphase.2 (.inl hserver),
    .inl hserver, ?_⟩
  simp [hwritten, expectedLength]

/-- The client finishes exactly when the file has arrived for files of
83762340 bytes and for no others. -/
theorem client_finishes_iff_length (F : Bytes) :
    FinishesExactly F ↔ F.length = expectedLength := by
  refine ⟨?_, finishesExactly_of_length⟩
  rintro ⟨hexit, -, hstuck⟩
  obtain ⟨n, hn⟩ := exists_draining F
  rcases drained_of_draining n hn with ⟨t, ht, hlen⟩ | ⟨t, ht, hend⟩
  · rw [← hexit t ht, hlen]
  · obtain ⟨hdone, hto, hfrom, hstate, hout⟩ := hend
    exact (hstuck t ht ⟨hdone, hto, hfrom, hstate, hout⟩).elim

/-- A file of one byte arrives, and the client waits on. -/
theorem client_waits_after_one_byte : ¬FinishesExactly [72] := by
  intro h
  let events : List NetEvent :=
    handshakeEvents ++ [.serverWriteable .ok, .clientReceive .ok]
  have hreplay : ∃ c, (network [72]).Run (.up .start) events c ∧
      c.UpWith fun n ↦ n.server.pss.state = .done ∧ n.toServer = [] ∧ n.toClient = [] ∧
        n.client.psc.state = .transfer ∧ n.client.psc.outfp = .opened n.written := by
    apply Lts.exists_run_of_replay
    decide +kernel
  obtain ⟨c, hrun, hup⟩ := hreplay
  obtain ⟨n, rfl, hend⟩ := Config.upWith_iff.mp hup
  have hok : ∀ e ∈ events, e.Ok := by
    simp [events, handshakeEvents, NetEvent.Ok]
  have hreliable : (reliableNetwork [72]).Run (.up .start) events (.up n) :=
    hrun.restrict fun e he s ↦ allSucceed_ok (hok e he)
  exact h.2.2 n ⟨_, _, rfl, hreliable⟩ hend

end EsNotebook.FileTransfer
