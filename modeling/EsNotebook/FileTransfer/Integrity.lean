import EsNotebook.FileTransfer.Network

/-!
# Integrity of the transfer

The network refines the reliable pipe that carries `testfile.bin`, so no
interleaving of callbacks and no fragmentation loses, repeats or reorders a
byte, and no byte of a handshake message is stored.
-/

namespace EsNotebook.FileTransfer

/-- How a configuration of the network shows the state of the pipe.  When the
connection has ended, only the output end of the pipe is left. -/
def PipeRel (F : Bytes) : Config → Pipe UInt8 → Prop
  | .up n, p => n.Up ∧ NetPhase F n ∧ p = n.view F
  | .exited n, p =>
      n.StoredContent ∧ BitVec.ofNat 32 n.written.length = expectedBytes ∧ p = n.view F
  | .down outfp stored, p =>
      p.out = outfp.content ∧ (stored.map Prod.snd).flatten = outfp.content ∧
        ∀ chunk ∈ stored, chunk.1 = .fileContent

theorem pipe_run_of_pipeStep {F : Bytes} {n t : Net} (h : PipeStep F n t) :
    ∃ fs, (pipe F).Run (n.view F) fs (t.view F) := by
  rcases h with h | ⟨e, h⟩
  · exact ⟨[], h ▸ Lts.Run.nil⟩
  · exact ⟨[e], Lts.Run.single (by rw [h]; rfl)⟩

theorem network_simulates_pipe (F : Bytes) :
    (network F).Simulation (pipe F) (PipeRel F) where
  init := by
    rintro c rfl
    refine ⟨_, rfl, ⟨rfl, rfl, rfl⟩, .connected ⟨rfl, rfl, rfl, rfl⟩ rfl rfl rfl rfl, rfl⟩
  step := by
    intro c e d p hR hstep
    cases c with
    | down => cases hstep
    | exited => cases hstep
    | up n =>
        obtain ⟨hup, hphase, rfl⟩ := hR
        obtain ⟨t, ht, rfl⟩ := Option.map_eq_some_iff.mp hstep
        cases netOutcome_of_step hup hphase ht with
        | on hup' hphase' hpipe =>
            obtain ⟨fs, hfs⟩ := pipe_run_of_pipeStep hpipe
            refine ⟨fs, t.view F, hfs, ?_⟩
            rw [hup'.settle]
            exact ⟨hup', hphase', rfl⟩
        | ended hrunning hclosed hwritten hstored =>
            refine ⟨[], n.view F, .nil, ?_⟩
            have hsettle : t.settle = .down t.client.psc.outfp t.stored := by
              simp [Net.settle, hrunning, hclosed]
            rw [hsettle, hstored]
            refine ⟨hwritten.symm, ?_, hphase.storedContent.sites⟩
            rw [hphase.storedContent.stored]
            exact hwritten.symm
        | finished hexited hstored hbytes hpipe =>
            obtain ⟨fs, hfs⟩ := pipe_run_of_pipeStep hpipe
            refine ⟨fs, t.view F, hfs, ?_⟩
            have hsettle : t.settle = .exited t := by
              simp [Net.settle, hexited]
            rw [hsettle]
            exact ⟨hstored, hbytes, rfl⟩

/-- Everything in `outfp` came from file blocks, and what is stored and what
is in flight are the part of the file that the server has read. -/
structure NetIntegrity (F : Bytes) (n : Net) : Prop where
  stored : (n.stored.map Prod.snd).flatten = n.written
  no_handshake : ∀ chunk ∈ n.stored, chunk.1 = .fileContent
  read : n.written ++ n.inFlight = F.take n.position

/-- Integrity of a configuration.  After the connection has ended there is no
server and nothing in flight, and the output file holds a prefix of the file. -/
def TransferIntegrity (F : Bytes) : Config → Prop
  | .up n =>
      (n.client.psc.state = .transfer → n.client.psc.outfp = .opened n.written) ∧
        NetIntegrity F n
  | .exited n => NetIntegrity F n
  | .down outfp stored =>
      (stored.map Prod.snd).flatten = outfp.content ∧
        (∀ chunk ∈ stored, chunk.1 = .fileContent) ∧ outfp.content <+: F

/-- What has left the source of the pipe is what the server has read. -/
theorem read_eq_take {F : Bytes} {n : Net} (h : (pipe F).Reachable (n.view F)) :
    n.written ++ n.inFlight = F.take n.position := by
  have hconserve : n.written ++ n.inFlight ++ F.drop n.position =
      F.take n.position ++ F.drop n.position := by
    rw [List.take_append_drop]
    exact pipe_conserves h
  exact List.append_cancel_right hconserve

theorem outfp_open_of_netPhase {F : Bytes} {n : Net} (h : NetPhase F n)
    (hstate : n.client.psc.state = .transfer) :
    n.client.psc.outfp = .opened n.written := by
  cases h with
  | transferring h => exact h.outfp
  | starting hu _ hout => rw [hout, hu.written]
  | connected _ hc | requested _ hc | accepted _ hc | replied _ hc | confirmed _ hc =>
      simp [hc] at hstate

theorem transferIntegrity_of_pipeRel {F : Bytes} {c : Config} {p : Pipe UInt8}
    (hp : (pipe F).Reachable p) (hR : PipeRel F c p) : TransferIntegrity F c := by
  cases c with
  | up n =>
      obtain ⟨_, hphase, rfl⟩ := hR
      exact ⟨outfp_open_of_netPhase hphase, hphase.storedContent.stored,
        hphase.storedContent.sites, read_eq_take hp⟩
  | exited n =>
      obtain ⟨hstored, _, rfl⟩ := hR
      exact ⟨hstored.stored, hstored.sites, read_eq_take hp⟩
  | down outfp stored =>
      obtain ⟨hout, hstored, hsites⟩ := hR
      refine ⟨hstored, hsites, p.transit ++ p.source, ?_⟩
      rw [← hout, ← List.append_assoc]
      exact pipe_conserves hp

theorem netPhase_of_network {F : Bytes} {n : Net} (h : (network F).Reachable (.up n)) :
    n.Up ∧ NetPhase F n := by
  obtain ⟨p, _, hup, hphase, _⟩ := (network_simulates_pipe F).reachable h
  exact ⟨hup, hphase⟩

theorem read_of_network {F : Bytes} {n : Net}
    (h : (network F).Reachable (.up n) ∨ (network F).Reachable (.exited n)) :
    n.written ++ n.inFlight = F.take n.position := by
  rcases h with h | h
  · obtain ⟨p, hp, _, _, rfl⟩ := (network_simulates_pipe F).reachable h
    exact read_eq_take hp
  · obtain ⟨p, hp, _, _, rfl⟩ := (network_simulates_pipe F).reachable h
    exact read_eq_take hp

/-- In every reachable state, for every file, interleaving and fragmentation:
the client stores only while `outfp` is open, only bytes of the file, and
without loss, duplication or reordering. -/
theorem transfer_integrity (F : Bytes) (c : Config) (h : (network F).Reachable c) :
    TransferIntegrity F c := by
  obtain ⟨p, hp, hR⟩ := (network_simulates_pipe F).reachable h
  exact transferIntegrity_of_pipeRel hp hR

/-- The handshake, one block and the first byte of it. -/
theorem transfer_integrity_one_byte_stored :
    ∃ n : Net, n.written = [72] ∧ n.inFlight = [105] ∧
      TransferIntegrity [72, 105] (.up n) := by
  let events : List NetEvent :=
    [.clientWriteable .ok, .serverReceive .ok, .serverWriteable .ok, .clientReceive .ok,
      .clientWriteable .ok, .serverReceive .ok, .serverWriteable .ok, .clientFragment 1 .ok]
  have hreplay : ∃ c, (network [72, 105]).Run (.up .start) events c ∧
      c.UpWith fun n ↦ n.written = [72] ∧ n.inFlight = [105] := by
    apply Lts.exists_run_of_replay
    decide +kernel
  obtain ⟨c, hrun, hup⟩ := hreplay
  obtain ⟨n, rfl, hwritten, hflight⟩ := Config.upWith_iff.mp hup
  exact ⟨n, hwritten, hflight, transfer_integrity _ _ ⟨_, events, rfl, hrun⟩⟩

end EsNotebook.FileTransfer
