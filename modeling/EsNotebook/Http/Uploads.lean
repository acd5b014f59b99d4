import EsNotebook.Http.Callback
import EsNotebook.Lib.Custody

/-!
# Uploaded files

All uploads go to the same file, each through a descriptor of its own.  What
one connection has counted bounds how far its descriptor can have come, so
the file stays small under any interleaving.  A descriptor is closed at the
end of its upload and nowhere else.
-/

namespace EsNotebook.Http

variable {cfg : Config} {s s' t : Server} {e : Event} {es : List Event} {a b : Addr}
  {c c' : Connection} {fd : Fd} {lost lost' : List Fd} {file : PostFile} {content : List UInt8}
  {buf : List UInt8} {wrote n o : ℕ} {pieces : List (List UInt8)} {f : Connection → Connection}

/-! ## The file -/

theorem length_overwrite_le (bs : List UInt8) :
    (overwrite content o bs).length ≤ max content.length (o + bs.length) := by
  unfold overwrite
  split
  · exact le_max_left _ _
  · simp only [List.length_append, List.length_take, List.length_replicate, List.length_drop]
    omega

theorem overwrite_end (bs : List UInt8) :
    overwrite content content.length bs = content ++ bs := by
  unfold overwrite
  split
  · next hnil => rw [hnil, List.append_nil]
  · rw [List.take_length, Nat.sub_self, List.replicate_zero, List.append_nil,
      List.drop_eq_nil_of_le (Nat.le_add_right _ _), List.append_nil]

theorem write_eq (bs : List UInt8) (ho : file.offsets.get? fd = some o) :
    file.write (some fd) bs
      = ⟨overwrite file.content o bs, file.offsets.modify fd (· + bs.length)⟩ := by
  simp [PostFile.write, ho]

theorem isSome_get?_write (fd' : Option Fd) (bs : List UInt8) :
    ((file.write fd' bs).offsets.get? fd).isSome = (file.offsets.get? fd).isSome := by
  unfold PostFile.write
  split
  · exact Heap.isSome_get?_modify
  · rfl

theorem get?_write_of_ne {fd' : Option Fd} (bs : List UInt8) (hne : fd' ≠ some fd) :
    (file.write fd' bs).offsets.get? fd = file.offsets.get? fd := by
  unfold PostFile.write
  split
  · next fd'' o hbind =>
      obtain ⟨g, rfl, hg⟩ := Option.bind_eq_some_iff.mp hbind
      obtain ⟨o', -, heq⟩ := Option.map_eq_some_iff.mp hg
      obtain ⟨rfl, rfl⟩ : g = fd'' ∧ o' = o := by simpa using heq
      exact Heap.get?_modify_of_ne fun h ↦ hne (h ▸ rfl)
  · rfl

/-! ## Who is uploading -/

/-- The descriptor of a file that is not complete yet. -/
def Connection.upload (c : Connection) : Option Fd := if c.inFile then c.pss.postFd else none

/-- The descriptor of the connection at an address. -/
def Server.uploading (s : Server) (a : Addr) : Option Fd :=
  (s.connections.get? a).bind Connection.upload

theorem uploading_of_get? (hc : s.connections.get? a = some c) : s.uploading a = c.upload := by
  simp [Server.uploading, hc]

theorem upload_eq_some_iff : c.upload = some fd ↔ c.inFile = true ∧ c.pss.postFd = some fd := by
  simp [Connection.upload]

/-- Whether data would take an upload past the limit. -/
def Server.TooLong (s : Server) (a : Addr) (buf : List UInt8) : Prop :=
  ∃ c ∈ s.connections.get? a, buf.length ≠ 0 ∧ maxFileLength < c.pss.fileLength + buf.length

instance (s : Server) (a : Addr) (buf : List UInt8) : Decidable (s.TooLong a buf) :=
  match h : s.connections.get? a with
  | none => isFalse fun ⟨c, hc, _⟩ ↦ by simp [h] at hc
  | some c => decidable_of_iff (buf.length ≠ 0 ∧ maxFileLength < c.pss.fileLength + buf.length)
      ⟨fun hlong ↦ ⟨c, h, hlong⟩, fun ⟨d, hd, hlong⟩ ↦ Option.some.inj (h.symm.trans hd) ▸ hlong⟩

/-- The descriptor that nobody will close after an event: of a file whose last
part is too long, or of a connection that is lost in the middle of a file. -/
def abandons (s : Server) : Event → List Fd
  | .fileUpload a (.finalContent buf _) =>
      if s.TooLong a buf then (s.uploading a).toList else []
  | .httpDropProtocol a | .closed a => (s.uploading a).toList
  | _ => []

/-- The connections, the file and the descriptors `lost` so far. -/
structure UploadsOk (s : Server) (lost : List Fd) : Prop where
  custody : Custody (fun fd ↦ (s.file.offsets.get? fd).isSome) s.uploading lost
  parser : ∀ a c, s.connections.get? a = some c → c.inFile = true → c.pss.spa = true
  counted : ∀ a c fd o, s.connections.get? a = some c → c.upload = some fd →
    s.file.offsets.get? fd = some o → o ≤ c.pss.fileLength
  size : s.file.content.length ≤ maxFileLength

/-- What an event does to one connection and to the file. -/
theorem UploadsOk.at (h : UploadsOk s lost)
    (hother : ∀ b, b ≠ a → s'.connections.get? b = s.connections.get? b)
    (hcustody : Custody (fun fd ↦ (s'.file.offsets.get? fd).isSome)
      (Function.update s.uploading a (s'.uploading a)) lost')
    (hoffsets : ∀ b fd, b ≠ a → s.uploading b = some fd →
      s'.file.offsets.get? fd = s.file.offsets.get? fd)
    (hself : ∀ c, s'.connections.get? a = some c → (c.inFile = true → c.pss.spa = true) ∧
      ∀ fd o, c.upload = some fd → s'.file.offsets.get? fd = some o → o ≤ c.pss.fileLength)
    (hsize : s'.file.content.length ≤ maxFileLength) : UploadsOk s' lost' := by
  have huploading : ∀ b, s'.uploading b = Function.update s.uploading a (s'.uploading a) b := by
    intro b
    by_cases hb : b = a
    · rw [hb, Function.update_self]
    · rw [Function.update_of_ne hb, Server.uploading, hother b hb, Server.uploading]
  refine ⟨hcustody.congr (fun _ ↦ Iff.rfl) huploading, fun b c hc ↦ ?_, fun b c fd o hc hfd ho ↦ ?_,
    hsize⟩
  · by_cases hb : b = a
    · subst hb
      exact (hself c hc).1
    · exact h.parser b c (hother b hb ▸ hc)
  · by_cases hb : b = a
    · subst hb
      exact (hself c hc).2 fd o hfd ho
    · rw [hother b hb] at hc
      rw [hoffsets b fd hb ((uploading_of_get? hc).trans hfd)] at ho
      exact h.counted b c fd o hc hfd ho

/-- An event that has nothing to do with uploads. -/
theorem UploadsOk.quiet (h : UploadsOk s lost) (hc : s.connections.get? a = some c)
    (hother : ∀ b, b ≠ a → s'.connections.get? b = s.connections.get? b)
    (hc' : s'.connections.get? a = some c') (hfile : s'.file = s.file)
    (hin : c'.inFile = c.inFile) (hfd : c'.pss.postFd = c.pss.postFd)
    (hrest : c.inFile = true → c'.pss.spa = c.pss.spa ∧ c'.pss.fileLength = c.pss.fileLength) :
    UploadsOk s' lost := by
  have hupload : c'.upload = c.upload := by rw [Connection.upload, hin, hfd, Connection.upload]
  have hsame : Function.update s.uploading a (s'.uploading a) = s.uploading := by
    rw [uploading_of_get? hc', hupload, ← uploading_of_get? hc, Function.update_eq_self]
  refine h.at hother ?_ (fun _ _ _ _ ↦ by rw [hfile]) (fun d hd ↦ ?_) (hfile ▸ h.size)
  · rw [hsame, hfile]
    exact h.custody
  · obtain rfl : c' = d := Option.some.inj (hc'.symm.trans hd)
    refine ⟨fun hinFile ↦ ?_, fun fd o hfd' ho ↦ ?_⟩
    · rw [hin] at hinFile
      rw [(hrest hinFile).1]
      exact h.parser a c hc hinFile
    · rw [hupload] at hfd'
      rw [(hrest (upload_eq_some_iff.mp hfd').1).2]
      exact h.counted a c fd o hc hfd' (hfile ▸ ho)

/-- A connection is no longer in the middle of a file, and its descriptor stays
open. -/
theorem UploadsOk.abandon (h : UploadsOk s lost)
    (hother : ∀ b, b ≠ a → s'.connections.get? b = s.connections.get? b)
    (hself : ∀ c, s'.connections.get? a = some c → c.inFile = false) (hfile : s'.file = s.file) :
    UploadsOk s' (lost ++ (s.uploading a).toList) := by
  have hnone : ∀ c, s'.connections.get? a = some c → c.upload = none := fun c hc ↦ by
    simp [Connection.upload, hself c hc]
  have huploading : s'.uploading a = none := by
    rw [Server.uploading, Option.bind_eq_none_iff]
    exact hnone
  refine h.at hother ?_ (fun _ _ _ _ ↦ by rw [hfile]) (fun c hc ↦ ?_) (hfile ▸ h.size)
  · rw [huploading, hfile]
    exact h.custody.abandon a
  · refine ⟨fun hin ↦ ?_, fun fd o hfd ↦ ?_⟩
    · simp [hself c hc] at hin
    · simp [hnone c hc] at hfd

theorem close_offsets (fd : Fd) :
    ((file.close (some fd)).offsets.get? n).isSome ↔ (file.offsets.get? n).isSome ∧ n ≠ fd := by
  change ((file.offsets.free fd).get? n).isSome ↔ _
  by_cases hn : n = fd
  · simp [hn, Heap.get?_free_self]
  · simp [hn, Heap.get?_free_of_ne hn]

/-- The end of a file. -/
theorem UploadsOk.finish (h : UploadsOk s lost) (hc : s.connections.get? a = some c)
    (hin : c.inFile = true) (hother : ∀ b, b ≠ a → s'.connections.get? b = s.connections.get? b)
    (hc' : s'.connections.get? a = some c') (hin' : c'.inFile = false)
    (hfile : s'.file = s.file.close c.pss.postFd) : UploadsOk s' lost := by
  have hnone : c'.upload = none := by simp [Connection.upload, hin']
  have huploading : s'.uploading a = none := (uploading_of_get? hc').trans hnone
  have hupload : s.uploading a = c.pss.postFd := by
    rw [uploading_of_get? hc, Connection.upload, if_pos hin]
  have hself : ∀ d, s'.connections.get? a = some d → (d.inFile = true → d.pss.spa = true) ∧
      ∀ fd o, d.upload = some fd → s'.file.offsets.get? fd = some o → o ≤ d.pss.fileLength := by
    intro d hd
    obtain rfl : c' = d := Option.some.inj (hc'.symm.trans hd)
    exact ⟨fun hd ↦ by simp [hin'] at hd, fun fd o hfd ↦ by simp [hnone] at hfd⟩
  cases hfd : c.pss.postFd with
  | none =>
      rw [hfd] at hfile hupload
      refine h.at hother ?_ (fun _ _ _ _ ↦ by rw [hfile]; rfl) hself (by rw [hfile]; exact h.size)
      have hsame : Function.update s.uploading a none = s.uploading := by
        rw [← hupload, Function.update_eq_self]
      rw [huploading, hsame, hfile]
      exact h.custody
  | some fd =>
      rw [hfd] at hfile hupload
      refine h.at hother ?_ (fun b g hb hg ↦ ?_) hself (by rw [hfile]; exact h.size)
      · rw [huploading, hfile]
        exact h.custody.release hupload fun g ↦ close_offsets fd
      · have hne : g ≠ fd := by
          rintro rfl
          exact hb (h.custody.inj b a g hg hupload)
        rw [hfile]
        exact Heap.get?_free_of_ne hne

theorem receiveContent_spec (pss : PerSessionDataHttp) (file : PostFile) (buf : List UInt8)
    (wrote : ℕ) :
    ∃ pss' file', receiveContent pss file buf wrote
        = (pss', file', !decide (buf.length ≠ 0 ∧ maxFileLength < pss.fileLength + buf.length)) ∧
      pss' = { pss with fileLength := pss.fileLength + buf.length } ∧
      (file' = file ∧ (buf = [] ∨ maxFileLength < pss.fileLength + buf.length) ∨
        pss'.fileLength ≤ maxFileLength ∧ file' = file.write pss.postFd (buf.take wrote)) := by
  by_cases hnil : buf.length = 0
  · exact ⟨pss, file, by simp [receiveContent, hnil], by simp [hnil],
      .inl ⟨rfl, .inl (List.length_eq_zero_iff.mp hnil)⟩⟩
  by_cases hlong : maxFileLength < pss.fileLength + buf.length
  · exact ⟨_, file, by simp [receiveContent, hnil, hlong], rfl, .inl ⟨rfl, .inr hlong⟩⟩
  · exact ⟨_, _, by simp [receiveContent, hnil, hlong], rfl, .inr ⟨Nat.le_of_not_lt hlong, rfl⟩⟩

/-- Data in the middle of a file. -/
theorem UploadsOk.receive (h : UploadsOk s lost) (hc : s.connections.get? a = some c)
    (hin : c.inFile = true) (hother : ∀ b, b ≠ a → s'.connections.get? b = s.connections.get? b)
    (hc' : s'.connections.get? a = some c') (hin' : c'.inFile = true)
    (hpss : c'.pss = { c.pss with fileLength := c.pss.fileLength + buf.length })
    (hfile : s'.file = s.file ∨ c'.pss.fileLength ≤ maxFileLength ∧
      s'.file = s.file.write c.pss.postFd (buf.take wrote)) : UploadsOk s' lost := by
  have hupload : c'.upload = c.upload := by
    rw [Connection.upload, Connection.upload, hin, hin', hpss]
  have hsame : Function.update s.uploading a (s'.uploading a) = s.uploading := by
    rw [uploading_of_get? hc', hupload, ← uploading_of_get? hc, Function.update_eq_self]
  have hlength : c'.pss.fileLength = c.pss.fileLength + buf.length := by rw [hpss]
  have hopen : ∀ fd, (s'.file.offsets.get? fd).isSome = (s.file.offsets.get? fd).isSome := by
    intro fd
    rcases hfile with hfile | ⟨-, hfile⟩
    · rw [hfile]
    · rw [hfile, isSome_get?_write]
  have hupfd : c.upload = c.pss.postFd := by rw [Connection.upload, if_pos hin]
  refine h.at hother ?_ (fun b fd hb hfd ↦ ?_) (fun d hd ↦ ?_) ?_
  · rw [hsame]
    exact h.custody.congr (fun fd ↦ by rw [hopen]) fun _ ↦ rfl
  · rcases hfile with hfile | ⟨-, hfile⟩
    · rw [hfile]
    · rw [hfile]
      refine get?_write_of_ne _ fun heq ↦ hb ?_
      exact h.custody.inj b a fd hfd ((uploading_of_get? hc).trans (hupfd.trans heq))
  · obtain rfl : c' = d := Option.some.inj (hc'.symm.trans hd)
    refine ⟨fun _ ↦ ?_, fun fd o hfd ho ↦ ?_⟩
    · rw [hpss]
      exact h.parser a c hc hin
    · rw [hupload] at hfd
      rcases hfile with hfile | ⟨-, hfile⟩
      · rw [hfile] at ho
        have hle := h.counted a c fd o hc hfd ho
        omega
      · obtain ⟨o', ho'⟩ : ∃ o', s.file.offsets.get? fd = some o' :=
          Option.isSome_iff_exists.mp (h.custody.isOpen_of_held ((uploading_of_get? hc).trans hfd))
        have hle := h.counted a c fd o' hc hfd ho'
        rw [hfile, hupfd.symm.trans hfd, write_eq _ ho', Heap.get?_modify_of_get? ho'] at ho
        have hlen := List.length_take_le' wrote buf
        have heq := Option.some.inj ho
        omega
  · rcases hfile with hfile | ⟨hmax, hfile⟩
    · exact hfile ▸ h.size
    · cases hfd : c.pss.postFd with
      | none =>
          rw [hfile, hfd]
          exact h.size
      | some fd =>
          have hheld : c.upload = some fd := hupfd.trans hfd
          obtain ⟨o, ho⟩ : ∃ o, s.file.offsets.get? fd = some o :=
            Option.isSome_iff_exists.mp
              (h.custody.isOpen_of_held ((uploading_of_get? hc).trans hheld))
          have hle := h.counted a c fd o hc hheld ho
          have hlen := List.length_take_le' wrote buf
          rw [hfile, hfd, write_eq _ ho]
          calc (overwrite s.file.content o (buf.take wrote)).length
              ≤ max s.file.content.length (o + (buf.take wrote).length) := length_overwrite_le _
            _ ≤ maxFileLength := max_le h.size (by omega)

/-- The beginning of a file. -/
theorem UploadsOk.opened {opened : Option Fd} (h : UploadsOk s lost)
    (hc : s.connections.get? a = some c) (hin : c.inFile = false) (hspa : c.pss.spa = true)
    (hfresh : ∀ fd ∈ opened, s.file.offsets.get? fd = none)
    (hother : ∀ b, b ≠ a → s'.connections.get? b = s.connections.get? b)
    (hc' : s'.connections.get? a = some c') (hin' : c'.inFile = true)
    (hspa' : c'.pss.spa = c.pss.spa) (hfd' : c'.pss.postFd = opened)
    (hfile : s'.file = s.file.create opened) : UploadsOk s' lost := by
  have hnone : s.uploading a = none := by
    rw [uploading_of_get? hc, Connection.upload, hin]
    rfl
  have hupload : c'.upload = opened := by rw [Connection.upload, if_pos hin', hfd']
  have huploading : s'.uploading a = opened := (uploading_of_get? hc').trans hupload
  have hspa'' : ∀ d, s'.connections.get? a = some d → d.inFile = true → d.pss.spa = true := by
    intro d hd _
    obtain rfl : c' = d := Option.some.inj (hc'.symm.trans hd)
    rw [hspa', hspa]
  cases opened with
  | none =>
      refine h.at hother ?_ (fun _ _ _ _ ↦ by rw [hfile]; rfl)
        (fun d hd ↦ ⟨hspa'' d hd, fun fd o hfd ↦ ?_⟩) (by rw [hfile]; exact h.size)
      · have hsame : Function.update s.uploading a none = s.uploading := by
          rw [← hnone, Function.update_eq_self]
        rw [huploading, hsame, hfile]
        exact h.custody
      · obtain rfl : c' = d := Option.some.inj (hc'.symm.trans hd)
        rw [hupload] at hfd
        cases hfd
  | some fd =>
      have hno : ¬(s.file.offsets.get? fd).isSome := by simp [hfresh fd rfl]
      have hoffsets : ∀ g, g ≠ fd → s'.file.offsets.get? g = s.file.offsets.get? g := by
        intro g hg
        rw [hfile]
        exact Heap.get?_alloc_of_ne hg
      have hself : s'.file.offsets.get? fd = some 0 := by
        rw [hfile]
        exact Heap.get?_alloc_self
      refine h.at hother ?_ (fun b g _ hg ↦ hoffsets g fun heq ↦ ?_)
        (fun d hd ↦ ⟨hspa'' d hd, fun g o hg ho ↦ ?_⟩) (by rw [hfile]; exact Nat.zero_le _)
      · rw [huploading]
        refine h.custody.acquire hnone hno fun g ↦ ?_
        by_cases hg : g = fd
        · simp [hg, hself]
        · simp [hg, hoffsets g hg]
      · exact hno (heq ▸ h.custody.isOpen_of_held hg)
      · obtain rfl : c' = d := Option.some.inj (hc'.symm.trans hd)
        obtain rfl : fd = g := Option.some.inj (hupload.symm.trans hg)
        rw [hself] at ho
        exact Option.some.inj ho ▸ Nat.zero_le _

/-! ## One event -/

/-- What an event changes of a connection besides its upload. -/
structure Connection.SameUpload (c c' : Connection) : Prop where
  inFile : c'.inFile = c.inFile
  pss : c'.pss = { c.pss with fopFd := c'.pss.fopFd }

theorem http_sameUpload {handles handles' : Heap Fd ℕ} {req : Request} {ok : Bool}
    (h : http cfg c handles req fd ok = some (c', handles')) : c.SameUpload c' := by
  obtain ⟨answer, -, h⟩ := Option.bind_eq_some_iff.mp h
  have hsame : ∀ d hs, some (d, hs) = some (c', handles') → c.SameUpload d → c.SameUpload c' := by
    intro d hs heq hd
    cases heq
    exact hd
  cases answer with
  | sendLeaf path =>
      cases hleaf : cfg.leaf with
      | none =>
          simp only [hleaf] at h
          exact hsame _ _ h ⟨rfl, rfl⟩
      | some content =>
          simp only [hleaf] at h
          split at h
          · exact hsame _ _ h ⟨rfl, rfl⟩
          · exact hsame _ _ h ⟨rfl, rfl⟩
  | _ => exact hsame _ _ h ⟨rfl, rfl⟩

theorem httpWriteable_sameUpload {handles handles' : Heap Fd ℕ} {ios : List Io}
    (h : httpWriteable cfg c handles ios = some (c', handles')) : c.SameUpload c' := by
  unfold httpWriteable at h
  split at h
  · cases h
    exact ⟨rfl, rfl⟩
  · obtain ⟨pos, -, h⟩ := Option.bind_eq_some_iff.mp h
    obtain ⟨content, -, h⟩ := Option.bind_eq_some_iff.mp h
    obtain ⟨⟨pieces, pos', label⟩, -, h⟩ := Option.bind_eq_some_iff.mp h
    cases label <;>
    · cases h
      exact ⟨rfl, rfl⟩

theorem UploadsOk.sameUpload (h : UploadsOk s lost) (hc : s.connections.get? a = some c)
    (hsame : c.SameUpload c') (handles : Heap Fd ℕ) :
    UploadsOk { s.modify a (fun _ ↦ c') with handles := handles } lost :=
  h.quiet hc (fun _ hb ↦ get?_modify_of_ne hb) (get?_modify_self hc) rfl hsame.inFile
    (by rw [hsame.pss]) fun _ ↦ by rw [hsame.pss]; exact ⟨rfl, rfl⟩

theorem UploadsOk.keep (h : UploadsOk s lost) : UploadsOk s (lost ++ []) := by
  rwa [List.append_nil]

/-- What the parser makes of a part of a file. -/
theorem UploadsOk.fileUpload (h : UploadsOk s lost) {call : UploadCall}
    (henabled : Enabled s (.fileUpload a call))
    (hcall : callback cfg s (.fileUpload a call) = some s') :
    UploadsOk s' (lost ++ abandons s (.fileUpload a call)) := by
  obtain ⟨c, hc, hcall⟩ := Option.bind_eq_some_iff.mp hcall
  cases call with
  | opened filename fd =>
      obtain ⟨hfresh, hany⟩ := henabled
      obtain ⟨c₁, hc₁, -, hspa, hin⟩ := exists_of_any hany
      obtain rfl : c = c₁ := Option.some.inj (hc.symm.trans hc₁)
      cases hcall
      exact .keep (h.opened hc hin hspa hfresh (fun _ hb ↦ get?_modify_of_ne hb)
        (get?_modify_self hc) rfl rfl rfl rfl)
  | content buf wrote =>
      obtain ⟨-, hany⟩ := henabled
      obtain ⟨c₁, hc₁, -, hspa, hin⟩ := exists_of_any hany
      obtain rfl : c = c₁ := Option.some.inj (hc.symm.trans hc₁)
      obtain ⟨pss', file', hreceive, hpss, hfile⟩ := receiveContent_spec c.pss s.file buf wrote
      simp only [fileUploadCb, hreceive, Option.some.injEq] at hcall
      subst hcall
      exact .keep (h.receive hc hin (fun _ hb ↦ get?_modify_of_ne hb) (get?_modify_self hc) rfl
        hpss (hfile.imp_left And.left))
  | finalContent buf wrote =>
      obtain ⟨-, hany⟩ := henabled
      obtain ⟨c₁, hc₁, -, hspa, hin⟩ := exists_of_any hany
      obtain rfl : c = c₁ := Option.some.inj (hc.symm.trans hc₁)
      obtain ⟨pss', file', hreceive, hpss, hfile⟩ := receiveContent_spec c.pss s.file buf wrote
      -- first the data, then what becomes of the descriptor
      set s₁ : Server := { s.modify a (fun c ↦ { c with pss := pss' }) with file := file' }
      have hc' : s₁.connections.get? a = some { c with pss := pss' } := get?_modify_self hc
      have h₁ : UploadsOk s₁ lost :=
        h.receive hc hin (fun _ hb ↦ get?_modify_of_ne hb) hc' hin hpss
          (hfile.imp_left And.left)
      have hlong : s.TooLong a buf ↔
          buf.length ≠ 0 ∧ maxFileLength < c.pss.fileLength + buf.length := by
        simp [Server.TooLong, hc]
      have hother : ∀ f b, b ≠ a →
          (s.modify a f).connections.get? b = s₁.connections.get? b := fun f b hb ↦
        (get?_modify_of_ne hb).trans (get?_modify_of_ne hb).symm
      simp only [fileUploadCb, hreceive, ← hlong] at hcall
      by_cases htoo : s.TooLong a buf
      · simp only [htoo, decide_true, Bool.not_true, Bool.false_eq_true, if_false,
          Option.some.injEq] at hcall
        subst hcall
        have huploading : s₁.uploading a = s.uploading a := by
          rw [uploading_of_get? hc', uploading_of_get? hc, Connection.upload, Connection.upload,
            hpss]
        rw [abandons, if_pos htoo, ← huploading]
        refine h₁.abandon (fun b hb ↦ hother _ b hb) (fun d hd ↦ ?_) rfl
        obtain rfl := Option.some.inj ((get?_modify_self hc).symm.trans hd)
        rfl
      · simp only [htoo, decide_false, Bool.not_false, if_true, Option.some.injEq] at hcall
        subst hcall
        rw [abandons, if_neg htoo, List.append_nil]
        exact h₁.finish hc' hin (fun b hb ↦ hother _ b hb) (get?_modify_self hc) rfl rfl

theorem UploadsOk.step (h : UploadsOk s lost) (hstep : step cfg s e = some s') :
    UploadsOk s' (lost ++ abandons s e) := by
  obtain ⟨henabled, hcall⟩ := step_eq_some_iff.mp hstep
  cases e with
  | accepted a =>
      cases hcall
      have hnone : s.uploading a = none := by
        rw [Server.uploading, henabled]
        rfl
      have hself : (s.connections.alloc a .fresh).get? a = some .fresh := Heap.get?_alloc_self
      refine .keep (h.at (fun b hb ↦ Heap.get?_alloc_of_ne hb) ?_ (fun _ _ _ _ ↦ rfl)
        (fun c hc ↦ ?_) h.size)
      · have hfresh : Server.uploading { s with connections := s.connections.alloc a .fresh } a
            = none := by
          rw [Server.uploading, hself]
          rfl
        have hsame : Function.update s.uploading a none = s.uploading := by
          rw [← hnone, Function.update_eq_self]
        rw [hfresh, hsame]
        exact h.custody
      · obtain rfl : Connection.fresh = c := Option.some.inj (hself.symm.trans hc)
        exact ⟨fun hin ↦ absurd hin (by decide),
          fun fd o hfd ↦ absurd hfd (by simp [Connection.upload, Connection.fresh])⟩
  | http a req fd wrote =>
      obtain ⟨c, hc, hcall⟩ := Option.bind_eq_some_iff.mp hcall
      obtain ⟨⟨c', handles⟩, hhttp, hcall⟩ := Option.bind_eq_some_iff.mp hcall
      cases hcall
      exact (h.sameUpload hc (http_sameUpload hhttp) handles).keep
  | httpBody a created =>
      obtain ⟨c, hc, -⟩ := exists_of_any henabled
      cases hcall
      refine .keep (h.quiet hc (fun _ hb ↦ get?_modify_of_ne hb) (get?_modify_self hc) rfl ?_ ?_
        fun hin ↦ ?_)
      · unfold httpBody
        split_ifs <;> rfl
      · unfold httpBody
        split_ifs <;> rfl
      · rw [httpBody, if_pos (h.parser a c hc hin)]
        exact ⟨rfl, rfl⟩
  | fileUpload a call => exact h.fileUpload henabled hcall
  | httpBodyCompletion a =>
      obtain ⟨c, hc, -⟩ := exists_of_any henabled
      cases hcall
      exact .keep (h.quiet hc (fun _ hb ↦ get?_modify_of_ne hb) (get?_modify_self hc) rfl rfl rfl
        fun _ ↦ ⟨rfl, rfl⟩)
  | httpWriteable a ios =>
      obtain ⟨c, hc, hcall⟩ := Option.bind_eq_some_iff.mp hcall
      obtain ⟨⟨c', handles⟩, hwrite, hcall⟩ := Option.bind_eq_some_iff.mp hcall
      cases hcall
      exact (h.sameUpload hc (httpWriteable_sameUpload hwrite) handles).keep
  | httpDropProtocol a =>
      obtain ⟨c, hc⟩ := Option.isSome_iff_exists.mp henabled
      cases hcall
      refine h.abandon (fun _ hb ↦ get?_modify_of_ne hb) (fun d hd ↦ ?_) rfl
      obtain rfl := Option.some.inj ((get?_modify_self hc).symm.trans hd)
      rfl
  | closed a =>
      cases hcall
      refine h.abandon (fun _ hb ↦ Heap.get?_free_of_ne hb) (fun d hd ↦ ?_) rfl
      change (s.connections.free a).get? a = some d at hd
      rw [Heap.get?_free_self] at hd
      cases hd

theorem uploadsOk_init : UploadsOk .init [] where
  custody := .empty (fun fd ↦ by simp [Server.init, Heap.get?]) fun _ ↦ rfl
  parser a c hc := by simp [Server.init, Heap.get?] at hc
  counted a c fd o hc := by simp [Server.init, Heap.get?] at hc
  size := Nat.zero_le _

/-! ## Runs -/

theorem uploadsOk_of_run (hrun : (httpServer cfg).Run .init es t) :
    UploadsOk t (Lts.outputs (step cfg) abandons .init es) := by
  induction hrun with
  | nil => exact uploadsOk_init
  | @snoc es t u e hrun hstep ih =>
      rw [Lts.outputs_snoc hrun]
      exact ih.step hstep

/-- However the uploads of the clients are mixed, the file they share never
gets longer than one upload may be. -/
theorem postFile_bounded (hs : (httpServer cfg).Reachable s) :
    s.file.content.length ≤ maxFileLength := by
  obtain ⟨s₀, es, rfl, hrun⟩ := hs
  exact (uploadsOk_of_run hrun).size

/-- The second client's file is cut short where the first one has come. -/
theorem postFile_bounded_two_clients :
    ∃ s, (httpServer ⟨[], none, false⟩).Run .init
      [.accepted 1, .accepted 2, .httpBody 1 true, .httpBody 2 true,
        .fileUpload 1 (.opened ['x'] (some 7)), .fileUpload 1 (.content [1, 2, 3] 3),
        .fileUpload 2 (.opened ['y'] (some 8)), .fileUpload 2 (.finalContent [9] 1),
        .fileUpload 1 (.finalContent [4] 1)] s ∧
      s.file.content = [9, 0, 0, 4] ∧ s.file.content.length ≤ maxFileLength := by
  obtain ⟨s, hrun, hcontent⟩ : ∃ s, (httpServer ⟨[], none, false⟩).Run .init
      [.accepted 1, .accepted 2, .httpBody 1 true, .httpBody 2 true,
        .fileUpload 1 (.opened ['x'] (some 7)), .fileUpload 1 (.content [1, 2, 3] 3),
        .fileUpload 2 (.opened ['y'] (some 8)), .fileUpload 2 (.finalContent [9] 1),
        .fileUpload 1 (.finalContent [4] 1)] s ∧ s.file.content = [9, 0, 0, 4] :=
    Lts.exists_run_of_replay (by decide +kernel)
  exact ⟨s, hrun, hcontent, postFile_bounded ⟨_, _, rfl, hrun⟩⟩

/-- Exactly two kinds of descriptors are open: those of the files that are
being uploaded, one for each, and those that were abandoned. -/
theorem descriptors_of_run (hrun : (httpServer cfg).Run .init es t) :
    (∀ fd, (t.file.offsets.get? fd).isSome ↔
      (∃ a, t.uploading a = some fd) ∨ fd ∈ Lts.outputs (step cfg) abandons .init es) ∧
      (∀ a b fd, t.uploading a = some fd → t.uploading b = some fd → a = b) ∧
      (∀ a fd, t.uploading a = some fd → fd ∉ Lts.outputs (step cfg) abandons .init es) ∧
      (Lts.outputs (step cfg) abandons .init es).Nodup := by
  have h := (uploadsOk_of_run hrun).custody
  exact ⟨h.open_iff, h.inj, h.apart, h.nodup⟩

/-- A client that leaves in the middle of a file. -/
theorem descriptors_of_lost_client :
    ∃ t, (httpServer ⟨[], none, false⟩).Run .init
      [.accepted 1, .httpBody 1 true, .fileUpload 1 (.opened ['x'] (some 7)),
        .fileUpload 1 (.content [1, 2, 3] 3), .httpDropProtocol 1, .closed 1] t ∧
      (t.file.offsets.get? 7).isSome ∧ ∀ a, t.uploading a ≠ some 7 := by
  obtain ⟨t, hrun, -⟩ : ∃ t, (httpServer ⟨[], none, false⟩).Run .init
      [.accepted 1, .httpBody 1 true, .fileUpload 1 (.opened ['x'] (some 7)),
        .fileUpload 1 (.content [1, 2, 3] 3), .httpDropProtocol 1, .closed 1] t ∧
      t.file.content = [1, 2, 3] := Lts.exists_run_of_replay (by decide +kernel)
  have hlost : 7 ∈ Lts.outputs (step ⟨[], none, false⟩) abandons .init
      [.accepted 1, .httpBody 1 true, .fileUpload 1 (.opened ['x'] (some 7)),
        .fileUpload 1 (.content [1, 2, 3] 3), .httpDropProtocol 1, .closed 1] := by decide +kernel
  obtain ⟨hopen, -, happart, -⟩ := descriptors_of_run hrun
  exact ⟨t, hrun, (hopen 7).mpr (.inr hlost), fun a ha ↦ happart a 7 ha hlost⟩

/-! ## An upload that nobody disturbs -/

/-- The data of an upload, part by part. -/
def Event.parts : Event → List (List UInt8)
  | .fileUpload _ (.content buf _) | .fileUpload _ (.finalContent buf _) => [buf]
  | _ => []

/-- The parts that are written, after `n` bytes: all up to the first one that
goes past the limit. -/
def accepted : ℕ → List (List UInt8) → List (List UInt8)
  | _, [] => []
  | n, part :: parts =>
      if n + part.length > maxFileLength then [] else part :: accepted (n + part.length) parts

theorem accepted_concat (part : List UInt8) :
    accepted n (pieces ++ [part]) = accepted n pieces ++
      if n + pieces.flatten.length + part.length > maxFileLength then [] else [part] := by
  induction pieces generalizing n with
  | nil =>
      rw [List.nil_append, List.flatten_nil, List.length_nil, Nat.add_zero]
      rfl
  | cons p pieces ih =>
      rw [List.cons_append, accepted, accepted, List.flatten_cons, List.length_append]
      by_cases hp : n + p.length > maxFileLength
      · have hall : n + (p.length + pieces.flatten.length) + part.length > maxFileLength := by omega
        rw [if_pos hp, if_pos hp, if_pos hall, List.append_nil]
      · rw [if_neg hp, if_neg hp, ih, List.cons_append, Nat.add_assoc n]

/-- The event is no upload of another connection, no new file, and its data
get through. -/
def Event.Undisturbing (a : Addr) : Event → Prop
  | .fileUpload _ (.opened _ _) => False
  | .fileUpload b (.content buf wrote) | .fileUpload b (.finalContent buf wrote) =>
      b = a ∧ wrote = buf.length
  | _ => True

instance (a : Addr) (e : Event) : Decidable (e.Undisturbing a) :=
  match e with
  | .fileUpload _ (.opened _ _) => inferInstanceAs (Decidable False)
  | .fileUpload _ (.content _ _) | .fileUpload _ (.finalContent _ _) =>
      inferInstanceAs (Decidable (_ ∧ _))
  | .accepted _ | .http _ _ _ _ | .httpBody _ _ | .httpBodyCompletion _ | .httpWriteable _ _
  | .httpDropProtocol _ | .closed _ => inferInstanceAs (Decidable True)

/-- The connection `a`, which has counted `n` bytes before, has uploaded these
parts through `fd`. -/
structure Uploaded (s : Server) (a : Addr) (fd : Fd) (n : ℕ) (pieces : List (List UInt8)) :
    Prop where
  content : s.file.content = (accepted n pieces).flatten
  upload : ∀ c, s.connections.get? a = some c → c.inFile = true →
    c.pss.spa = true ∧ c.pss.postFd = some fd ∧ c.pss.fileLength = n + pieces.flatten.length ∧
      s.file.offsets.get? fd = some s.file.content.length

/-- The upload of a connection is what it was, if it is still going on. -/
def StillUploading (s s' : Server) (a : Addr) : Prop :=
  ∀ c', s'.connections.get? a = some c' → c'.inFile = true →
    ∃ c, s.connections.get? a = some c ∧ c.inFile = true ∧ (c.pss.spa = true →
      c'.pss.spa = true ∧ c'.pss.postFd = c.pss.postFd ∧ c'.pss.fileLength = c.pss.fileLength)

theorem stillUploading_modify
    (hf : ∀ c, s.connections.get? b = some c → (f c).inFile = true → c.inFile = true ∧
      (c.pss.spa = true → (f c).pss.spa = true ∧ (f c).pss.postFd = c.pss.postFd ∧
        (f c).pss.fileLength = c.pss.fileLength)) (handles : Heap Fd ℕ) :
    StillUploading s { s.modify b f with handles := handles } a := by
  intro c' hc' hin'
  change (s.connections.modify b f).get? a = some c' at hc'
  rw [Heap.get?_modify] at hc'
  split at hc'
  · next hab =>
      subst hab
      obtain ⟨c, hc, rfl⟩ := Option.map_eq_some_iff.mp hc'
      exact ⟨c, hc, hf c hc hin'⟩
  · exact ⟨c', hc', hin', fun hspa ↦ ⟨hspa, rfl, rfl⟩⟩

theorem Uploaded.quiet (h : Uploaded s a fd n pieces) (hfile : s'.file = s.file)
    (hself : StillUploading s s' a) : Uploaded s' a fd n (pieces ++ []) := by
  rw [List.append_nil]
  refine ⟨hfile ▸ h.content, fun c' hc' hin' ↦ ?_⟩
  obtain ⟨c, hc, hin, hrest⟩ := hself c' hc' hin'
  obtain ⟨hspa, hfd, hlength, hoffset⟩ := h.upload c hc hin
  obtain ⟨hspa', hfd', hlength'⟩ := hrest hspa
  exact ⟨hspa', hfd'.trans hfd, hlength'.trans hlength, hfile ▸ hoffset⟩

theorem Uploaded.receive (h : Uploaded s a fd n pieces) (hc : s.connections.get? a = some c)
    (hin : c.inFile = true) (hc' : s'.connections.get? a = some c')
    (hpss : c'.pss = { c.pss with fileLength := c.pss.fileLength + buf.length })
    (hfile : s'.file = s.file ∧ (buf = [] ∨ maxFileLength < c.pss.fileLength + buf.length) ∨
      c'.pss.fileLength ≤ maxFileLength ∧
        s'.file = s.file.write c.pss.postFd (buf.take buf.length)) :
    Uploaded s' a fd n (pieces ++ [buf]) := by
  obtain ⟨hspa, hfd, hlength, hoffset⟩ := h.upload c hc hin
  have htotal : c'.pss.fileLength = n + (pieces ++ [buf]).flatten.length := by
    rw [hpss, List.flatten_append, List.length_append, ← Nat.add_assoc, ← hlength]
    simp
  have hself : s'.file.offsets.get? fd = some s'.file.content.length →
      ∀ d, s'.connections.get? a = some d → d.inFile = true →
        d.pss.spa = true ∧ d.pss.postFd = some fd ∧
          d.pss.fileLength = n + (pieces ++ [buf]).flatten.length ∧
          s'.file.offsets.get? fd = some s'.file.content.length := by
    intro hoffset' d hd _
    obtain rfl : c' = d := Option.some.inj (hc'.symm.trans hd)
    exact ⟨by rw [hpss, hspa], by rw [hpss, hfd], htotal, hoffset'⟩
  rcases hfile with ⟨hfile, hcase⟩ | ⟨hmax, hfile⟩
  · refine ⟨?_, hself (hfile ▸ hoffset)⟩
    rw [hfile, h.content, accepted_concat, List.flatten_append]
    rcases hcase with rfl | hlong
    · split <;> simp
    · rw [hlength] at hlong
      rw [if_pos hlong, List.flatten_nil, List.append_nil]
  · rw [hfd, List.take_length, write_eq _ hoffset, overwrite_end] at hfile
    have hcontent : s'.file.content = s.file.content ++ buf := by rw [hfile]
    refine ⟨?_, hself ?_⟩
    · have hfits : ¬n + pieces.flatten.length + buf.length > maxFileLength := by
        rw [hpss, hlength] at hmax
        exact Nat.not_lt.mpr hmax
      rw [hcontent, h.content, accepted_concat, if_neg hfits, List.flatten_append]
      simp
    · rw [hcontent, List.length_append, hfile]
      exact Heap.get?_modify_of_get? hoffset

theorem Uploaded.close (h : Uploaded s a fd n pieces)
    (hself : ∀ c, s'.connections.get? a = some c → c.inFile = false)
    (hcontent : s'.file.content = s.file.content) : Uploaded s' a fd n pieces :=
  ⟨hcontent.trans h.content, fun c hc hin ↦ absurd hin (by simp [hself c hc])⟩

theorem Connection.SameUpload.still (hsame : c.SameUpload c') (hin : c'.inFile = true) :
    c.inFile = true ∧ (c.pss.spa = true → c'.pss.spa = true ∧ c'.pss.postFd = c.pss.postFd ∧
      c'.pss.fileLength = c.pss.fileLength) := by
  refine ⟨hsame.inFile ▸ hin, fun hspa ↦ ?_⟩
  rw [hsame.pss]
  exact ⟨hspa, rfl, rfl⟩

theorem Uploaded.fileUpload (h : Uploaded s a fd n pieces) {call : UploadCall}
    (henabled : Enabled s (.fileUpload b call))
    (hcall : callback cfg s (.fileUpload b call) = some s')
    (he : (Event.fileUpload b call).Undisturbing a) :
    Uploaded s' a fd n (pieces ++ (Event.fileUpload b call).parts) := by
  obtain ⟨c, hc, hcall⟩ := Option.bind_eq_some_iff.mp hcall
  cases call with
  | opened filename g => exact he.elim
  | content buf wrote =>
      obtain ⟨rfl, rfl⟩ := he
      obtain ⟨c₁, hc₁, -, -, hin⟩ := exists_of_any henabled.2
      obtain rfl : c = c₁ := Option.some.inj (hc.symm.trans hc₁)
      obtain ⟨pss', file', hreceive, hpss, hfile⟩ :=
        receiveContent_spec c.pss s.file buf buf.length
      simp only [fileUploadCb, hreceive, Option.some.injEq] at hcall
      subst hcall
      exact h.receive hc hin (get?_modify_self hc) hpss hfile
  | finalContent buf wrote =>
      obtain ⟨rfl, rfl⟩ := he
      obtain ⟨c₁, hc₁, -, -, hin⟩ := exists_of_any henabled.2
      obtain rfl : c = c₁ := Option.some.inj (hc.symm.trans hc₁)
      obtain ⟨pss', file', hreceive, hpss, hfile⟩ :=
        receiveContent_spec c.pss s.file buf buf.length
      simp only [fileUploadCb, hreceive] at hcall
      set s₁ : Server := { s.modify b (fun c ↦ { c with pss := pss' }) with file := file' }
      have h₁ : Uploaded s₁ b fd n (pieces ++ [buf]) :=
        h.receive hc hin (get?_modify_self hc) hpss hfile
      have hself : ∀ f : Connection → Connection, (∀ c, (f c).inFile = false) →
          ∀ d, (s.modify b f).connections.get? b = some d → d.inFile = false := by
        intro f hf d hd
        obtain rfl := Option.some.inj ((get?_modify_self hc).symm.trans hd)
        exact hf c
      split at hcall <;> cases hcall
      · refine h₁.close (hself _ fun _ ↦ rfl) ?_
        cases pss'.postFd <;> rfl
      · exact h₁.close (hself _ fun _ ↦ rfl) rfl

theorem Uploaded.step (h : Uploaded s a fd n pieces) (hstep : step cfg s e = some s')
    (he : e.Undisturbing a) : Uploaded s' a fd n (pieces ++ e.parts) := by
  obtain ⟨henabled, hcall⟩ := step_eq_some_iff.mp hstep
  cases e with
  | accepted b =>
      cases hcall
      refine h.quiet rfl fun c' hc' hin' ↦ ?_
      change (s.connections.alloc b .fresh).get? a = some c' at hc'
      by_cases hab : a = b
      · subst hab
        rw [Heap.get?_alloc_self] at hc'
        obtain rfl := Option.some.inj hc'
        exact absurd hin' (by decide)
      · rw [Heap.get?_alloc_of_ne hab] at hc'
        exact ⟨c', hc', hin', fun hspa ↦ ⟨hspa, rfl, rfl⟩⟩
  | http b req g ok =>
      obtain ⟨c, hc, hcall⟩ := Option.bind_eq_some_iff.mp hcall
      obtain ⟨⟨c', handles⟩, hhttp, hcall⟩ := Option.bind_eq_some_iff.mp hcall
      cases hcall
      refine h.quiet rfl (stillUploading_modify (fun d hd hin ↦ ?_) handles)
      obtain rfl : c = d := Option.some.inj (hc.symm.trans hd)
      exact (http_sameUpload hhttp).still hin
  | httpBody b created =>
      cases hcall
      refine h.quiet rfl (stillUploading_modify (fun d _ hin ↦ ?_) s.handles)
      have hd : d.inFile = true := by
        unfold httpBody at hin
        split_ifs at hin <;> exact hin
      refine ⟨hd, fun hspa ↦ ?_⟩
      rw [httpBody, if_pos hspa]
      exact ⟨hspa, rfl, rfl⟩
  | fileUpload b call => exact h.fileUpload henabled hcall he
  | httpBodyCompletion b =>
      cases hcall
      refine h.quiet rfl (stillUploading_modify (fun d _ hin ↦ ?_) s.handles)
      exact ⟨hin, fun hspa ↦ ⟨hspa, rfl, rfl⟩⟩
  | httpWriteable b ios =>
      obtain ⟨c, hc, hcall⟩ := Option.bind_eq_some_iff.mp hcall
      obtain ⟨⟨c', handles⟩, hwrite, hcall⟩ := Option.bind_eq_some_iff.mp hcall
      cases hcall
      refine h.quiet rfl (stillUploading_modify (fun d hd hin ↦ ?_) handles)
      obtain rfl : c = d := Option.some.inj (hc.symm.trans hd)
      exact (httpWriteable_sameUpload hwrite).still hin
  | httpDropProtocol b =>
      cases hcall
      exact h.quiet rfl (stillUploading_modify (fun d _ hin ↦ absurd hin (by simp)) s.handles)
  | closed b =>
      cases hcall
      refine h.quiet rfl fun c' hc' hin' ↦ ?_
      change (s.connections.free b).get? a = some c' at hc'
      by_cases hab : a = b
      · subst hab
        rw [Heap.get?_free_self] at hc'
        cases hc'
      · rw [Heap.get?_free_of_ne hab] at hc'
        exact ⟨c', hc', hin', fun hspa ↦ ⟨hspa, rfl, rfl⟩⟩

/-- From its beginning on, a file that is uploaded alone is in place: all that
has been sent, or what came before the limit. -/
theorem content_of_undisturbed_upload {filename : List Char} {s₁ : Server}
    (hopen : (httpServer cfg).step s (.fileUpload a (.opened filename (some fd))) s₁)
    (hrun : (httpServer cfg).Run s₁ es t) (hes : ∀ e ∈ es, e.Undisturbing a) :
    ∃ c, s.connections.get? a = some c ∧
      t.file.content = (accepted c.pss.fileLength (es.flatMap Event.parts)).flatten := by
  obtain ⟨henabled, hcall⟩ := step_eq_some_iff.mp hopen
  obtain ⟨c, hc, -, hspa, -⟩ := exists_of_any henabled.2
  obtain ⟨c₁, hc₁, hcall⟩ := Option.bind_eq_some_iff.mp hcall
  obtain rfl : c = c₁ := Option.some.inj (hc.symm.trans hc₁)
  suffices h : Uploaded t a fd c.pss.fileLength (es.flatMap Event.parts) from ⟨c, hc, h.content⟩
  induction hrun with
  | nil =>
      cases hcall
      refine ⟨rfl, fun d hd _ ↦ ?_⟩
      obtain rfl := Option.some.inj ((get?_modify_self hc).symm.trans hd)
      exact ⟨hspa, rfl, rfl, Heap.get?_alloc_self⟩
  | snoc _ hstep ih =>
      rw [List.flatMap_append, List.flatMap_singleton]
      exact (ih fun e he ↦ hes e (by simp [he])).step hstep (hes _ (by simp))

theorem content_of_undisturbed_upload_two_parts :
    ∃ s₁ t, (httpServer ⟨[], none, false⟩).Run s₁
      [.fileUpload 1 (.content [1, 2] 2), .closed 2, .fileUpload 1 (.finalContent [3] 1),
        .httpBodyCompletion 1] t ∧ t.file.content = [1, 2, 3] := by
  obtain ⟨s, t, hs, ⟨hcount, hopen⟩, hrun⟩ : ∃ s t, (httpServer ⟨[], none, false⟩).Run .init
      [.accepted 1, .accepted 2, .httpBody 1 true] s ∧
      ((∀ c ∈ s.connections.get? 1, c.pss.fileLength = 0) ∧
        (step ⟨[], none, false⟩ s (.fileUpload 1 (.opened ['x'] (some 7)))).isSome) ∧
      (httpServer ⟨[], none, false⟩).Run s
        [.fileUpload 1 (.opened ['x'] (some 7)), .fileUpload 1 (.content [1, 2] 2), .closed 2,
          .fileUpload 1 (.finalContent [3] 1), .httpBodyCompletion 1] t :=
    Lts.exists_runs_of_replay (by decide +kernel)
  obtain ⟨s₁, hfirst, hrest⟩ := Lts.run_ofStep_cons_iff.mp hrun
  obtain ⟨c, hc, hcontent⟩ :=
    content_of_undisturbed_upload hfirst hrest (by decide)
  rw [hcount c hc] at hcontent
  exact ⟨s₁, t, hrest, hcontent.trans (by decide)⟩

end EsNotebook.Http
