import EsNotebook.FileTransfer.Memory

/-!
# Bounds of the receive paths

Which frames the two `RECEIVE` callbacks can handle without reading past the
frame and without a string that leaves its field.  The check of the magic and
of the size says nothing about either.
-/

namespace EsNotebook.FileTransfer

open CMemory

/-- A header that the server can take apart: every field that it reads lies
inside the frame, and the two strings have their NUL in time. -/
def HeaderFits (inp : Bytes) : Prop :=
  4 ≤ inp.length ∧ ∀ type, load32 inp 0 = some type → fssGetMagic type = fssMagic →
    8 ≤ inp.length ∧ ∀ filesize, load32 inp 4 = some filesize →
      filesize.toInt ≤ fssMaxFileSize →
        0 ∈ (inp.drop FssHeaderHsk.filenameOffset).take fssMaxFilenameLen ∧
          0 ∈ (inp.drop FssHeaderHsk.checksumOffset).take fssFileChecksumLen

namespace ServerObject

variable {s t : ServerObject} {inp : Bytes}

/-- The frame is read within its length, and each string stays in its field
of the session. -/
def InBounds (s : ServerObject) (inp : Bytes) : Prop :=
  ∀ ptr, ∃ t copies, s.receive ptr inp = some (t, copies) ∧ ∀ copy ∈ copies, copy.Fits

/-- What a frame must be like, by state. -/
def FrameFits (s : ServerObject) (inp : Bytes) : Prop :=
  (load32 s.mem 0 = some FileServerState.connected.code → HeaderFits inp) ∧
    (load32 s.mem 0 ≠ some FileServerState.connected.code →
      load32 s.mem 0 ≠ some FileServerState.waitStart.code → 4 ≤ inp.length)

end ServerObject

theorem headerFits_iff {inp : Bytes} :
    HeaderFits inp ↔ ∃ refused, headerRefused inp = some refused ∧
      (refused = false →
        0 ∈ (inp.drop FssHeaderHsk.filenameOffset).take fssMaxFilenameLen ∧
          0 ∈ (inp.drop FssHeaderHsk.checksumOffset).take fssFileChecksumLen) := by
  constructor
  · rintro ⟨hfour, hheader⟩
    obtain ⟨type, htype⟩ : ∃ type, load32 inp 0 = some type :=
      Option.isSome_iff_exists.mp (load32_isSome_iff.mpr (by simpa using hfour))
    by_cases hmagic : fssGetMagic type = fssMagic
    · obtain ⟨height, hsize⟩ := hheader type htype hmagic
      obtain ⟨filesize, hfilesize⟩ : ∃ filesize, load32 inp 4 = some filesize :=
        Option.isSome_iff_exists.mp (load32_isSome_iff.mpr (by simpa using height))
      refine ⟨decide (fssMaxFileSize < filesize.toInt), ?_, ?_⟩
      · simp [headerRefused, htype, hmagic, hfilesize]
      · intro haccepted
        apply hsize filesize hfilesize
        simpa using haccepted
    · exact ⟨true, by simp [headerRefused, htype, hmagic], by simp⟩
  · rintro ⟨refused, hhdr, hstrings⟩
    obtain ⟨type, htype, hhdr⟩ := Option.bind_eq_some_iff.mp hhdr
    have hfour : 0 + 4 ≤ inp.length := load32_isSome_iff.mp (by simp [htype])
    refine ⟨by simpa using hfour, ?_⟩
    intro type' htype' hmagic
    obtain rfl : type = type' := Option.some.inj (htype.symm.trans htype')
    rw [if_neg (by simpa using hmagic)] at hhdr
    obtain ⟨filesize, hfilesize, hhdr⟩ := Option.bind_eq_some_iff.mp hhdr
    refine ⟨load32_isSome_iff.mp (by simp [hfilesize]), ?_⟩
    intro filesize' hfilesize' hle
    obtain rfl : filesize = filesize' := Option.some.inj (hfilesize.symm.trans hfilesize')
    apply hstrings
    rw [← Option.some.inj hhdr]
    simpa using hle

theorem load_of_accepted {inp : Bytes} (h : headerRefused inp = some false) :
    ∃ filesize, load32 inp 4 = some filesize := by
  obtain ⟨type, -, h⟩ := Option.bind_eq_some_iff.mp h
  split at h
  · cases h
  · obtain ⟨filesize, hfilesize, -⟩ := Option.bind_eq_some_iff.mp h
    exact ⟨filesize, hfilesize⟩

namespace ServerObject

variable {s t : ServerObject} {inp : Bytes}

theorem setState_length {v : FileServerState} (h : s.setState v = some t) :
    t.mem.length = s.mem.length := by
  obtain ⟨m, hm, h⟩ := Option.bind_eq_some_iff.mp h
  rw [← Option.some.inj h]
  exact store_length hm

theorem receive_length {ptr : BitVec 64} {copies : List StringCopy}
    (h : s.receive ptr inp = some (t, copies)) : t.mem.length = s.mem.length := by
  obtain ⟨state, -, h⟩ := Option.bind_eq_some_iff.mp h
  split at h
  · obtain ⟨refused, -, h⟩ := Option.bind_eq_some_iff.mp h
    cases refused with
    | true =>
        obtain ⟨u, hset, h⟩ := Option.bind_eq_some_iff.mp h
        obtain ⟨rfl, -⟩ := Prod.mk.inj (Option.some.inj h)
        exact setState_length hset
    | false =>
        obtain ⟨⟨m₁, c₁⟩, hname, h⟩ := Option.bind_eq_some_iff.mp h
        obtain ⟨⟨m₂, c₂⟩, hsum, h⟩ := Option.bind_eq_some_iff.mp h
        obtain ⟨filesize, -, h⟩ := Option.bind_eq_some_iff.mp h
        obtain ⟨m₃, hsize, h⟩ := Option.bind_eq_some_iff.mp h
        obtain ⟨u, hset, h⟩ := Option.bind_eq_some_iff.mp h
        obtain ⟨rfl, -⟩ := Prod.mk.inj (Option.some.inj h)
        calc u.mem.length = m₃.length := setState_length hset
          _ = m₂.length := store_length hsize
          _ = m₁.length := copyString_length hsum
          _ = s.mem.length := copyString_length hname
  · split at h
    · obtain ⟨m, hstore, h⟩ := Option.bind_eq_some_iff.mp h
      obtain ⟨u, hset, h⟩ := Option.bind_eq_some_iff.mp h
      obtain ⟨rfl, -⟩ := Prod.mk.inj (Option.some.inj h)
      exact (setState_length hset).trans (store_length hstore)
    · obtain ⟨type, -, h⟩ := Option.bind_eq_some_iff.mp h
      obtain ⟨rfl, -⟩ := Prod.mk.inj (Option.some.inj h)
      rfl

theorem writeable_length {F : Bytes} {io : ServerIo} (h : s.writeable F io = some t) :
    t.mem.length = s.mem.length := by
  obtain ⟨state, -, h⟩ := Option.bind_eq_some_iff.mp h
  split at h
  · split at h
    · rw [← Option.some.inj h]
    · exact setState_length h
  · split at h
    · obtain ⟨p, -, h⟩ := Option.bind_eq_some_iff.mp h
      split at h
      · cases h
      · dsimp only at h
        split at h
        · rw [← Option.some.inj h]
        · split at h
          · have hlen := setState_length h
            exact hlen
          · rw [← Option.some.inj h]
    · rw [← Option.some.inj h]

theorem length_of_reachable {F : Bytes} (h : (serverObjects F).Reachable s) :
    s.mem.length = ServerMemory.size := by
  have hinv : (serverObjects F).Invariant fun s ↦ s.mem.length = ServerMemory.size :=
    { init := by
        rintro s rfl
        decide +kernel
      step := by
        rintro s c t hs hstep
        change s.step F c = some t at hstep
        unfold step at hstep
        split at hstep
        · cases hstep
        · split at hstep
          · exact (writeable_length hstep).trans hs
          · obtain ⟨⟨u, copies⟩, hrec, rfl⟩ := Option.map_eq_some_iff.mp hstep
            exact (receive_length hrec).trans hs
          · exact Option.some.inj hstep ▸ hs }
  exact hinv.reachable h

theorem inBounds_iff_headerFits (hlen : s.mem.length = ServerMemory.size)
    (hstate : load32 s.mem 0 = some FileServerState.connected.code) :
    s.InBounds inp ↔ HeaderFits inp := by
  rw [headerFits_iff]
  constructor
  · intro h
    obtain ⟨t, copies, hrec, hfit⟩ := h 0
    obtain ⟨state, hload, hrec⟩ := Option.bind_eq_some_iff.mp hrec
    obtain rfl := Option.some.inj (hstate.symm.trans hload)
    rw [if_pos rfl] at hrec
    obtain ⟨refused, hhdr, hrec⟩ := Option.bind_eq_some_iff.mp hrec
    refine ⟨refused, hhdr, ?_⟩
    rintro rfl
    obtain ⟨⟨m₁, c₁⟩, hname, hrec⟩ := Option.bind_eq_some_iff.mp hrec
    obtain ⟨⟨m₂, c₂⟩, hsum, hrec⟩ := Option.bind_eq_some_iff.mp hrec
    obtain ⟨filesize, -, hrec⟩ := Option.bind_eq_some_iff.mp hrec
    obtain ⟨m₃, -, hrec⟩ := Option.bind_eq_some_iff.mp hrec
    obtain ⟨u, -, hrec⟩ := Option.bind_eq_some_iff.mp hrec
    obtain ⟨-, rfl⟩ := Prod.mk.inj (Option.some.inj hrec)
    exact ⟨(fits_iff_mem_take hname).mp (hfit c₁ (by simp)),
      (fits_iff_mem_take hsum).mp (hfit c₂ (by simp))⟩
  · rintro ⟨refused, hhdr, hstrings⟩ ptr
    cases refused with
    | true =>
        obtain ⟨t, hset⟩ := exists_setState hlen .error
        refine ⟨t, [], ?_, by simp⟩
        simp [receive, ServerMemory.state, hstate, hhdr, hset]
    | false =>
        obtain ⟨hname, hsum⟩ := hstrings rfl
        obtain ⟨m₁, c₁, hcopy₁⟩ := copyString_of_mem_take (m := s.mem)
          (f := ServerMemory.filename) (by rw [Field.Within, hlen]; decide) hname
        have hlen₁ : m₁.length = ServerMemory.size := (copyString_length hcopy₁).trans hlen
        obtain ⟨m₂, c₂, hcopy₂⟩ := copyString_of_mem_take (m := m₁)
          (f := ServerMemory.checksum) (by rw [Field.Within, hlen₁]; decide) hsum
        have hlen₂ : m₂.length = ServerMemory.size := (copyString_length hcopy₂).trans hlen₁
        obtain ⟨filesize, hfilesize⟩ := load_of_accepted hhdr
        obtain ⟨m₃, hstore⟩ : ∃ m₃, store m₂ 260 (bytes32 filesize) = some m₃ :=
          Option.isSome_iff_exists.mp (store_isSome_iff.mpr (by
            rw [hlen₂, bytes32_length]
            decide))
        have hlen₃ : m₃.length = ServerMemory.size := (store_length hstore).trans hlen₂
        obtain ⟨t, hset⟩ := exists_setState (s := { s with mem := m₃ }) hlen₃ .headerReady
        refine ⟨t, [c₁, c₂], ?_, ?_⟩
        · simp [receive, ServerMemory.state, ServerMemory.filesize, hstate, hhdr, hcopy₁,
            hcopy₂, hfilesize, hstore, hset]
        · intro copy hmem
          rcases List.mem_pair.mp hmem with rfl | rfl
          · exact (fits_iff_mem_take hcopy₁).mpr hname
          · exact (fits_iff_mem_take hcopy₂).mpr hsum

theorem inBounds_of_waitStart (hlen : s.mem.length = ServerMemory.size)
    (hstate : load32 s.mem 0 = some FileServerState.waitStart.code) : s.InBounds inp := by
  intro ptr
  obtain ⟨m, hstore⟩ : ∃ m, store s.mem 296 (leBytes 8 ptr.toNat) = some m :=
    Option.isSome_iff_exists.mp (store_isSome_iff.mpr (by
      rw [hlen, leBytes_length]
      decide))
  have hlen' : m.length = ServerMemory.size := (store_length hstore).trans hlen
  obtain ⟨t, hset⟩ := exists_setState (s := { s with mem := m, pos := 0 }) hlen'
    (if ptr = 0 then .error else .transfer)
  have hne : FileServerState.waitStart.code ≠ FileServerState.connected.code := by decide
  refine ⟨t, [], ?_, by simp⟩
  simp only [receive, ServerMemory.state, hstate, Option.bind_eq_bind, Option.bind_some,
    if_neg hne, if_true, ServerMemory.fp, hstore, hset]

theorem inBounds_iff_four_le {v : BitVec 32} (hstate : load32 s.mem 0 = some v)
    (hconn : v ≠ FileServerState.connected.code) (hwait : v ≠ FileServerState.waitStart.code) :
    s.InBounds inp ↔ 4 ≤ inp.length := by
  have hreceive (ptr : BitVec 64) :
      s.receive ptr inp = (load32 inp 0).bind fun _ ↦ some (s, []) := by
    simp only [receive, ServerMemory.state, hstate, Option.bind_eq_bind, Option.bind_some,
      if_neg hconn, if_neg hwait]
  constructor
  · intro h
    obtain ⟨t, copies, hrec, -⟩ := h 0
    rw [hreceive] at hrec
    obtain ⟨type, htype, -⟩ := Option.bind_eq_some_iff.mp hrec
    have hle : 0 + 4 ≤ inp.length := load32_isSome_iff.mp (by simp [htype])
    simpa using hle
  · intro hle ptr
    obtain ⟨type, htype⟩ : ∃ type, load32 inp 0 = some type :=
      Option.isSome_iff_exists.mp (load32_isSome_iff.mpr (by simpa using hle))
    exact ⟨s, [], by rw [hreceive, htype]; rfl, by simp⟩

theorem inBounds_iff (hlen : s.mem.length = ServerMemory.size) :
    s.InBounds inp ↔ s.FrameFits inp := by
  obtain ⟨v, hv⟩ : ∃ v, load32 s.mem 0 = some v :=
    Option.isSome_iff_exists.mp (load32_isSome_iff.mpr (by rw [hlen]; decide))
  by_cases hconn : v = FileServerState.connected.code
  · rw [inBounds_iff_headerFits hlen (hconn ▸ hv)]
    simp [FrameFits, hv, hconn]
  · by_cases hwait : v = FileServerState.waitStart.code
    · refine iff_of_true (inBounds_of_waitStart hlen (hwait ▸ hv)) ⟨?_, ?_⟩
      · intro h
        exact absurd (Option.some.inj (hv.symm.trans h)) hconn
      · intro _ h
        exact absurd (hwait ▸ hv) h
    · rw [inBounds_iff_four_le hv hconn hwait]
      simp [FrameFits, hv, hconn, hwait]

/-- While the server takes a header apart, `fp` and every other field that is
not its own keep their bytes. -/
theorem bytes_of_receive {ptr : BitVec 64} {copies : List StringCopy} {g : Field}
    (hstate : load32 s.mem 0 = some FileServerState.connected.code)
    (hrec : s.receive ptr inp = some (t, copies)) (hfit : ∀ copy ∈ copies, copy.Fits)
    (hg : g.Disjoint ServerMemory.filename ∧ g.Disjoint ServerMemory.checksum ∧
      g.Disjoint ServerMemory.filesize ∧ g.Disjoint ServerMemory.state) :
    g.bytes t.mem = g.bytes s.mem := by
  obtain ⟨hg₁, hg₂, hg₃, hg₄⟩ := hg
  obtain ⟨state, hload, hrec⟩ := Option.bind_eq_some_iff.mp hrec
  obtain rfl := Option.some.inj (hstate.symm.trans hload)
  rw [if_pos rfl] at hrec
  obtain ⟨refused, -, hrec⟩ := Option.bind_eq_some_iff.mp hrec
  cases refused with
  | true =>
      obtain ⟨u, hset, hrec⟩ := Option.bind_eq_some_iff.mp hrec
      obtain ⟨rfl, -⟩ := Prod.mk.inj (Option.some.inj hrec)
      exact setState_bytes hset hg₄
  | false =>
      obtain ⟨⟨m₁, c₁⟩, hname, hrec⟩ := Option.bind_eq_some_iff.mp hrec
      obtain ⟨⟨m₂, c₂⟩, hsum, hrec⟩ := Option.bind_eq_some_iff.mp hrec
      obtain ⟨filesize, -, hrec⟩ := Option.bind_eq_some_iff.mp hrec
      obtain ⟨m₃, hsize, hrec⟩ := Option.bind_eq_some_iff.mp hrec
      obtain ⟨u, hset, hrec⟩ := Option.bind_eq_some_iff.mp hrec
      obtain ⟨rfl, rfl⟩ := Prod.mk.inj (Option.some.inj hrec)
      have hfits₁ : c₁.Fits := hfit c₁ (by simp)
      have hfits₂ : c₂.Fits := hfit c₂ (by simp)
      exact (setState_bytes hset hg₄).trans
        (header_bytes hname hfits₁ hsum hfits₂ hsize ⟨hg₁, hg₂, hg₃⟩)

end ServerObject

namespace ClientObject

/-- The frame is read within its length; no string is copied. -/
def InBounds (s : ClientObject) (inp : Bytes) : Prop :=
  ∃ t, s.receive inp = some t

def FrameFits (s : ClientObject) (inp : Bytes) : Prop :=
  load32 s.mem 0 = some FileClientState.waitConfirm.code → 4 ≤ inp.length

variable {s : ClientObject} {inp : Bytes}

theorem inBounds_iff_of_waitConfirm (hlen : s.mem.length = ClientMemory.size)
    (hstate : load32 s.mem 0 = some FileClientState.waitConfirm.code) :
    s.InBounds inp ↔ 4 ≤ inp.length := by
  constructor
  · rintro ⟨t, hrec⟩
    obtain ⟨state, hload, hrec⟩ := Option.bind_eq_some_iff.mp hrec
    obtain rfl := Option.some.inj (hstate.symm.trans hload)
    rw [if_pos rfl] at hrec
    obtain ⟨type, htype, -⟩ := Option.bind_eq_some_iff.mp hrec
    have hle : 0 + 4 ≤ inp.length := load32_isSome_iff.mp (by simp [htype])
    simpa using hle
  · intro hle
    obtain ⟨type, htype⟩ : ∃ type, load32 inp 0 = some type :=
      Option.isSome_iff_exists.mp (load32_isSome_iff.mpr (by simpa using hle))
    by_cases hok : type = fssFileRespOk
    · obtain ⟨t, hset⟩ := exists_setState hlen .confirmed
      exact ⟨t, by simp [receive, ClientMemory.state, hstate, htype, hok, hset]⟩
    · exact ⟨_, by simp [receive, ClientMemory.state, hstate, htype, hok]; rfl⟩

theorem inBounds_of_transfer {run : ClientRun} {content : Bytes} (h : s.Represents run.psc)
    (hstate : run.psc.state = .transfer) (hout : run.psc.outfp = .opened content) :
    s.InBounds inp := by
  have hload : load32 s.mem 0 = some FileClientState.transfer.code := hstate ▸ h.state
  obtain ⟨m, hstore⟩ : ∃ m, store s.mem ClientMemory.bytes.offset
      (bytes32 (run.psc.bytes + BitVec.ofNat 32 inp.length)) = some m :=
    Option.isSome_iff_exists.mp (store_isSome_iff.mpr (by
      rw [h.length, bytes32_length]
      decide))
  obtain ⟨p, hp, hnull⟩ := (h.counted hstore).outfp
  have hne : p ≠ 0 := by simp [hnull, hout]
  have hcode : FileClientState.transfer.code ≠ FileClientState.waitConfirm.code := by decide
  have hbytes : load32 s.mem ClientMemory.bytes.offset = some run.psc.bytes := h.bytes
  have hptr : load 8 m ClientMemory.outfp.offset = some p := hp
  apply Option.isSome_iff_exists.mp
  simp only [receive, ClientMemory.state, hload, Option.bind_eq_bind, Option.bind_some,
    if_neg hcode, if_true, hbytes, hstore, hptr, if_neg hne, Option.isSome_some]

theorem inBounds_iff (h : clientObjects.Reachable s) (hopen : s.closed = false)
    (hrunning : s.exited = false) : s.InBounds inp ↔ s.FrameFits inp := by
  obtain ⟨run, -, hshows, hreach⟩ := clientObjects_simulates.reachable h
  have hstate := hshows.psc.state
  by_cases hwait : run.psc.state = .waitConfirm
  · rw [hwait] at hstate
    rw [inBounds_iff_of_waitConfirm hshows.psc.length hstate]
    simp [FrameFits, hstate]
  · have hne : run.psc.state.code ≠ FileClientState.waitConfirm.code :=
      fun heq ↦ hwait (FileClientState.code_injective heq)
    have hfits : s.FrameFits inp := by
      intro hcode
      exact absurd (Option.some.inj (hstate.symm.trans hcode)) hne
    refine iff_of_true ?_ hfits
    by_cases htransfer : run.psc.state = .transfer
    · obtain ⟨content, hout⟩ := (outfp_of_reachable hreach (hshows.exited.trans hrunning)).2
        (hshows.closed.trans hopen) htransfer
      exact inBounds_of_transfer hshows.psc htransfer hout
    · have hne' : run.psc.state.code ≠ FileClientState.transfer.code :=
        fun heq ↦ htransfer (FileClientState.code_injective heq)
      exact ⟨s, by
        simp only [receive, ClientMemory.state, hstate, Option.bind_eq_bind, Option.bind_some,
          if_neg hne, if_neg hne']⟩

end ClientObject

/-- Which frames are handled within bounds, in every reachable state of
either side. -/
theorem frames_in_bounds_iff (F : Bytes) :
    (∀ s inp, (serverObjects F).Reachable s → (s.InBounds inp ↔ s.FrameFits inp)) ∧
      ∀ s inp, clientObjects.Reachable s → s.closed = false → s.exited = false →
        (s.InBounds inp ↔ s.FrameFits inp) :=
  ⟨fun _ _ h ↦ ServerObject.inBounds_iff (ServerObject.length_of_reachable h),
    fun _ _ h hopen hrunning ↦ ClientObject.inBounds_iff h hopen hrunning⟩

/-- The header of a file with a full checksum of 32 digits. -/
def digestHeader : FssHeaderHsk :=
  { FssHeaderHsk.zero with type := fssFileReq, filesize := 1, checksum := Vector.replicate _ 97 }

/-- A checksum of 32 digits leaves no room for its NUL. -/
theorem digest_out_of_bounds :
    ¬∀ s inp, (serverObjects []).Reachable s → s.InBounds inp := by
  intro h
  have hin := h .start digestHeader.toBytes (.of_init rfl)
  have hlen : ServerObject.start.mem.length = ServerMemory.size := by decide +kernel
  have hstate : load32 ServerObject.start.mem 0 = some FileServerState.connected.code := by
    decide +kernel
  obtain ⟨-, hheader⟩ := (ServerObject.inBounds_iff_headerFits hlen hstate).mp hin
  obtain ⟨-, hstrings⟩ := hheader digestHeader.type (by decide +kernel) (by decide)
  obtain ⟨-, hsum⟩ := hstrings digestHeader.filesize (by decide +kernel) (by decide)
  revert hsum
  decide +kernel

end EsNotebook.FileTransfer
