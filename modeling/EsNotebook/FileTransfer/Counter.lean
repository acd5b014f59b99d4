import EsNotebook.FileTransfer.Completion

/-!
# The byte counter of the client

`psc->bytes` is an `int` to which the length of every fragment is added.  It
always agrees with the number of bytes stored modulo 2^32, and neither side
bounds the file that is sent, so it is exact for files of less than 2^31
bytes and wraps for all others.
-/

namespace EsNotebook.FileTransfer

/-- The counter as a signed integer is the number of bytes stored. -/
def Net.CounterExact (n : Net) : Prop :=
  0 ≤ n.client.psc.bytes.toInt ∧ n.client.psc.bytes.toInt = n.written.length

/-- The counter is exact in every client state in `FSC_TRANSFER`, up to the
moment in which the client exits. -/
def CounterAlwaysExact (F : Bytes) : Prop :=
  ∀ n, (network F).Reachable (.up n) ∨ (network F).Reachable (.exited n) →
    n.client.psc.state = .transfer → n.CounterExact

theorem bytes_of_netPhase {F : Bytes} {n : Net} (h : NetPhase F n)
    (hstate : n.client.psc.state = .transfer) :
    n.client.psc.bytes = BitVec.ofNat 32 n.written.length := by
  cases h with
  | transferring h => exact h.bytes
  | starting hu => simp [hu.bytes, hu.written]
  | connected _ hc | requested _ hc | accepted _ hc | replied _ hc | confirmed _ hc =>
      simp [hc] at hstate

/-- The fragment with which the client exits is counted as well. -/
theorem bytes_of_exits {F : Bytes} {n t : Net} {e : NetEvent} (hup : n.Up) (hn : NetPhase F n)
    (h : n.step F e = some t) (hexited : t.client.exited = true) :
    t.client.psc.bytes = BitVec.ofNat 32 t.written.length := by
  rcases client_step_of_net_step h with heq | ⟨c, hstep⟩
  · rw [heq, hup.running] at hexited
    cases hexited
  · obtain ⟨-, htrans⟩ := clientTransition_of_step hstep
    generalize ht : t.client = client at htrans hexited
    cases htrans with
    | requested | started | confirmed | rejected | stored => cases hexited
    | requestFailed _ _ _ _ _ hno | startFailed _ _ _ _ _ hno => simp [hno] at hexited
    | unexpected | idle => simp [hup.running] at hexited
    | finished _ hstate hout =>
        have hbytes := bytes_of_netPhase hn hstate
        have hwritten : n.written.length + c.inp.length = t.written.length := by
          simp [Net.written, ht, hout, OutFile.content]
        simp only [hbytes, ← BitVec.ofNat_add, hwritten]

theorem bytes_of_exited_network {F : Bytes} {n : Net}
    (h : (network F).Reachable (.exited n)) :
    n.client.psc.bytes = BitVec.ofNat 32 n.written.length := by
  obtain ⟨s₀, es, hinit, hrun⟩ := h
  cases hrun with
  | nil => cases hinit
  | snoc hrun hstep =>
      rename_i c _
      cases c with
      | down | exited => cases hstep
      | up m =>
          obtain ⟨t, ht, hsettle⟩ := Option.map_eq_some_iff.mp hstep
          obtain ⟨hup, hphase⟩ := netPhase_of_network ⟨s₀, _, hinit, hrun⟩
          have hexited : t = n ∧ t.client.exited = true := by
            unfold Net.settle at hsettle
            split at hsettle
            · exact ⟨Config.exited.inj hsettle, by assumption⟩
            · split at hsettle <;> cases hsettle
          obtain ⟨rfl, hexited⟩ := hexited
          exact bytes_of_exits hup hphase ht hexited

theorem counterExact_iff {n : Net} (h : n.client.psc.bytes = BitVec.ofNat 32 n.written.length)
    (hlt : n.written.length < 2 ^ 32) : n.CounterExact ↔ n.written.length < 2 ^ 31 := by
  have hnat : n.client.psc.bytes.toNat = n.written.length := by
    rw [h, BitVec.toNat_ofNat, Nat.mod_eq_of_lt hlt]
  rw [Net.CounterExact, BitVec.toInt_eq_toNat_cond, hnat]
  constructor
  · rintro ⟨hnonneg, hexact⟩
    split at hexact <;> omega
  · intro hsmall
    rw [if_pos (by omega)]
    omega

theorem counterAlwaysExact_of_length {F : Bytes} (hlen : F.length < 2 ^ 31) :
    CounterAlwaysExact F := by
  intro n h hstate
  have hbytes : n.client.psc.bytes = BitVec.ofNat 32 n.written.length := by
    rcases h with h | h
    · exact bytes_of_netPhase (netPhase_of_network h).2 hstate
    · exact bytes_of_exited_network h
  have hle := written_length_le (read_of_network h)
  exact (counterExact_iff hbytes (by omega)).mpr (by omega)

/-! ## Driving the counter past the largest `int` -/

/-- After `k` blocks have been sent and stored, and nothing is in flight. -/
structure Midway (F : Bytes) (k : ℕ) (n : Net) : Prop where
  reachable : (network F).Reachable (.up n)
  state : n.server.pss.state = .transfer
  fp : n.server.pss.fp = some (10000 * k)
  toClient : n.toClient = []
  written : n.written.length = 10000 * k

/-- After the client has stored all of the message at the head. -/
def Net.received (n : Net) (w : LwsWrite) (rest : List LwsWrite) : Net :=
  { n with
    client :=
      { psc :=
          { n.client.psc with
            bytes := n.client.psc.bytes + BitVec.ofNat 32 w.payload.length
            outfp := .opened (n.written ++ w.payload) }
        log := n.client.log ++ [.stored w.payload]
        closed := false
        exited := false }
    toClient := rest
    stored := n.stored ++ [(w.site, w.payload)] }

theorem step_receive {F : Bytes} {n : Net} {w : LwsWrite} {rest : List LwsWrite}
    (hup : n.Up) (hn : n.Transferring F) (hfrom : n.toClient = w :: rest)
    (hmore : n.client.psc.bytes + BitVec.ofNat 32 w.payload.length ≠ expectedBytes) :
    n.step F (.clientReceive .ok) = some (n.received w rest) := by
  have houtcome : clientReceive n.client.psc w.payload = some
      ⟨{ n.client.psc with
          bytes := n.client.psc.bytes + BitVec.ofNat 32 w.payload.length
          outfp := .opened (n.written ++ w.payload) }, none, some w.payload, 0, false⟩ := by
    simp only [clientReceive, hn.state, hn.outfp, if_neg hmore]
  have hclient : clientStep n.client ⟨.receive, w.payload, .ok⟩ = some
      (n.received w rest).client := by
    apply clientStep_eq_some.mpr
    refine ⟨⟨hup.client, hup.running, by simp⟩, _, houtcome, ?_⟩
    rw [ClientRun.after_none (by simp)]
    rfl
  simp only [Net.step, hfrom, Net.deliver, hclient, Option.map_some, Option.some.injEq]
  simp [Net.received]

/-- One block is sent and stored, as long as the counter does not show the
expected value after it. -/
theorem exists_relayed {F : Bytes} {k : ℕ} {n : Net} (hn : Midway F k n)
    (hlt : 10000 * k + 10000 < 2 ^ 32)
    (hne : 10000 * k + (fread F (10000 * k) none).length ≠ expectedLength) :
    ∃ t, (network F).Reachable (.up t) ∧ t.client.psc.state = .transfer ∧
      t.server.pss.state =
        (if (fread F (10000 * k) none).length < 10000 then .done else .transfer) ∧
      t.server.pss.fp = some (10000 * k + (fread F (10000 * k) none).length) ∧
      t.toClient = [] ∧
      t.written.length = 10000 * k + (fread F (10000 * k) none).length := by
  obtain ⟨hup, hphase⟩ := netPhase_of_network hn.reachable
  have htransfer := transferring_of_netPhase hphase (.inl hn.state)
  have hblock : (fread F (10000 * k) none).length ≤ 10000 := by simp [fread]
  have hsend := step_send (F := F) hup.server hn.state hn.fp
  generalize fread F (10000 * k) none = blk at hsend hblock hne ⊢
  have hup' : (n.sent (10000 * k) blk).Up := ⟨hup.client, hup.running, rfl⟩
  have hsent : (network F).Reachable (.up (n.sent (10000 * k) blk)) := by
    refine hn.reachable.step (e := .serverWriteable .ok) ?_
    simp [network, Lts.ofStep, Config.step, hsend, hup'.settle]
  have hserver : (n.sent (10000 * k) blk).server.pss.state = .transfer ∨
      (n.sent (10000 * k) blk).server.pss.state = .done := by
    by_cases hlast : blk.length < 10000 <;> simp [Net.sent, hlast]
  have htransfer' := transferring_of_netPhase (netPhase_of_network hsent).2 hserver
  have hfrom : (n.sent (10000 * k) blk).toClient = [contentWrite blk] := by
    simp [Net.sent, hn.toClient]
  have hmore : (n.sent (10000 * k) blk).client.psc.bytes +
      BitVec.ofNat 32 (contentWrite blk).payload.length ≠ expectedBytes := by
    have hbytes : (n.sent (10000 * k) blk).client.psc.bytes = BitVec.ofNat 32 (10000 * k) := by
      rw [← hn.written]
      exact htransfer.bytes
    rw [hbytes, ← BitVec.ofNat_add, Ne, length_eq_of_expectedBytes]
    · exact hne
    · simp only [contentWrite]
      omega
  have hreceive := step_receive hup' htransfer' hfrom hmore
  have hup'' : ((n.sent (10000 * k) blk).received (contentWrite blk) []).Up := ⟨rfl, rfl, rfl⟩
  refine ⟨(n.sent (10000 * k) blk).received (contentWrite blk) [], ?_, htransfer'.state, rfl,
    rfl, rfl, ?_⟩
  · refine hsent.step (e := .clientReceive .ok) ?_
    simp [network, Lts.ofStep, Config.step, hreceive, hup''.settle]
  · have hwritten : ((n.sent (10000 * k) blk).received (contentWrite blk) []).written =
        n.written ++ blk := rfl
    rw [hwritten, List.length_append, hn.written]

/-- Whole blocks never bring the counter to the expected value. -/
theorem exists_midway {F : Bytes} (k : ℕ) (hlen : 10000 * k ≤ F.length)
    (hlt : 10000 * k < 2 ^ 31) : ∃ n, Midway F k n := by
  induction k with
  | zero =>
      obtain ⟨n, hreach, hstate, hfp, hfrom, hwritten⟩ := exists_ready F
      exact ⟨n, .of_restrict hreach, hstate, hfp, hfrom, by simp [hwritten]⟩
  | succ k ih =>
      obtain ⟨n, hn⟩ := ih (by omega) (by omega)
      have hfull : (fread F (10000 * k) none).length = 10000 := by
        simp only [fread, List.length_take, List.length_drop]
        omega
      obtain ⟨t, hreach, -, hstate, hfp, hfrom, hwritten⟩ := exists_relayed hn (by omega) (by
        simp only [hfull, expectedLength]
        omega)
      rw [hfull] at hstate hfp hwritten
      exact ⟨t, hreach, hstate, by rw [hfp, Nat.mul_succ], hfrom, by rw [hwritten, Nat.mul_succ]⟩

/-- The block that takes the client to 2^31 bytes or beyond. -/
theorem not_counterAlwaysExact_of_length {F : Bytes} (hlen : 2 ^ 31 ≤ F.length) :
    ¬CounterAlwaysExact F := by
  intro hexact
  obtain ⟨n, hn⟩ := exists_midway (F := F) 214748 (by omega) (by omega)
  have hblock : (fread F (10000 * 214748) none).length = min 10000 (F.length - 2147480000) := by
    simp [fread]
  obtain ⟨t, hreach, hclient, -, -, -, hwritten⟩ := exists_relayed hn (by omega) (by
    simp only [hblock, expectedLength]
    omega)
  rw [hblock] at hwritten
  have hbytes := bytes_of_netPhase (netPhase_of_network hreach).2 hclient
  have hsmall := (counterExact_iff hbytes (by omega)).mp (hexact t (.inl hreach) hclient)
  omega

/-- The counter is exact in every state exactly for files of less than 2^31
bytes. -/
theorem counter_exact_iff_length (F : Bytes) : CounterAlwaysExact F ↔ F.length < 2 ^ 31 := by
  constructor
  · intro h
    by_contra hlen
    exact not_counterAlwaysExact_of_length (by omega) h
  · exact counterAlwaysExact_of_length

/-- A file of 2 GiB of zeros. -/
theorem counter_wraps_at_two_gib : ¬CounterAlwaysExact (List.replicate (2 ^ 31) 0) := by
  apply not_counterAlwaysExact_of_length
  rw [List.length_replicate]

end EsNotebook.FileTransfer
