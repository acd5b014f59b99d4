import Mathlib.Data.List.Infix

/-!
# Requests for files

`callback_http` of `test-server-http.c` answers a request by its path alone:
the form, the picture that is sent by hand, a file of the resource directory
by its name, or a refusal.  The paths are put together in buffers on the
stack; nothing stands for a write past their end.
-/

namespace EsNotebook.Http

/-- `sizeof(buf)` -/
def bufSize : ℕ := 256

/-- `sizeof(leaf_path)` -/
def leafPathSize : ℕ := 1024

/-- A string in a buffer of that size. -/
def fit (size : ℕ) (s : List Char) : Option (List Char) := if s.length < size then some s else none

/-- `resource_path`, the picture in it if there is one, and whether the server
is built with the client and OpenSSL. -/
structure Config where
  resourcePath : List Char
  leaf : Option (List UInt8)
  client : Bool

/-- What a request comes with: the path, of `len` characters, and what the
server asks libwebsockets about it. -/
structure Request where
  path : List Char
  hasPostUri : Bool
  hasCookie : Bool
  ssl : Bool
  hasChild : Bool
  deriving DecidableEq, Repr

/-- What the server does about a request. -/
inductive Answer where
  | badRequest
  | notAcceptable
  | proxy (path : List Char)
  | nothing
  | acceptPost
  | sendLeaf (leafPath : List Char)
  | refuse
  | unsupportedMediaType
  | serve (file mimetype : List Char) (setCookie transportSecurity : Bool)
  deriving DecidableEq, Repr

/-- The endings that `get_mimetype` knows, in its order. -/
def mimetypes : List (List Char × List Char) :=
  [(".ico".toList, "image/x-icon".toList), (".png".toList, "image/png".toList),
    (".html".toList, "text/html".toList), (".css".toList, "text/css".toList),
    (".js".toList, "text/javascript".toList)]

/-- `get_mimetype` -/
def getMimetype (file : List Char) : Option (List Char) :=
  if file.length < 5 then none
  else (mimetypes.find? fun e ↦ e.1.isSuffixOf file).map Prod.snd

/-- The path behind the directory in `buf`, cut off at the end of the buffer. -/
def appendPath (buf path : List Char) : Option (List Char) :=
  if path = ['/'] then fit bufSize (buf ++ "/test.html".toList)
  else
    (if path.head? = some '/' then some buf else fit bufSize (buf ++ ['/'])).map fun buf ↦
      buf ++ path.take (bufSize - buf.length - 1)

/-- The file that a path names. -/
def filePath (resourcePath path : List Char) : Option (List Char) :=
  if "/cgit-data/".toList.isPrefixOf path then
    (fit bufSize "/usr/share/cgit".toList).bind (appendPath · (path.drop 11))
  else (fit bufSize resourcePath).bind (appendPath · path)

/-- Sending a file the easy way. -/
def serveFile (cfg : Config) (req : Request) : Option Answer :=
  (filePath cfg.resourcePath req.path).map fun file ↦
    match getMimetype file with
    | none => .unsupportedMediaType
    | some mimetype => .serve file mimetype (req.path = ['/'] && !req.hasCookie) req.ssl

/-- `LWS_CALLBACK_HTTP` -/
def respond (cfg : Config) (req : Request) : Option Answer :=
  if req.path.length < 1 then some .badRequest
  else if cfg.client ∧ "/proxytest".toList.isPrefixOf req.path then
    some <| if req.hasChild then .nothing
      else .proxy (if req.path.length > 10 then req.path.drop 10 else "/git/".toList)
  -- this example server has no concept of directories
  else if '/' ∈ req.path.drop 1 then some .notAcceptable
  else if req.hasPostUri then some .acceptPost
  else if req.path = "/leaf.jpg".toList then
    if cfg.resourcePath.length > leafPathSize - 10 then some .refuse
    else (fit leafPathSize (cfg.resourcePath ++ "/leaf.jpg".toList)).map .sendLeaf
  else serveFile cfg req

variable {cfg : Config} {req : Request} {path file mimetype name dir : List Char} {n : ℕ}
  {setCookie transportSecurity : Bool}

/-! ## The path of a file -/

theorem fit_eq_some_iff {s t : List Char} : fit n s = some t ↔ s.length < n ∧ s = t := by
  simp [fit]

theorem isSome_fit_iff {s : List Char} : (fit n s).isSome ↔ s.length < n := by
  simp [fit]

/-- A path under `/cgit-data/` has a second slash, and is refused before. -/
theorem not_cgit_of_flat (hflat : '/' ∉ path.drop 1) :
    "/cgit-data/".toList.isPrefixOf path = false := by
  rw [Bool.eq_false_iff, ne_eq, List.isPrefixOf_iff_prefix]
  rintro ⟨rest, rfl⟩
  exact hflat (List.mem_append_left rest (by decide))

/-- What a flat path names in the resource directory. -/
def leafName (path : List Char) : List Char :=
  if path = ['/'] then "test.html".toList
  else if path.head? = some '/' then path.drop 1 else path

theorem slash_notMem_leafName (hflat : '/' ∉ path.drop 1) : '/' ∉ leafName path := by
  unfold leafName
  split
  · decide
  · split
    · exact hflat
    · next hhead =>
        cases path with
        | nil => simp
        | cons c rest =>
            have hc : '/' ≠ c := fun heq ↦ hhead (by rw [heq]; rfl)
            simpa [hc] using hflat

theorem appendPath_eq_some (hdir : dir.length < bufSize) (hpath : path ≠ [])
    (hfile : appendPath dir path = some file) : file = (dir ++ '/' :: leafName path).take 255 := by
  unfold bufSize at hdir
  obtain ⟨c, rest, rfl⟩ := List.exists_cons_of_ne_nil hpath
  by_cases hroot : c :: rest = ['/']
  · rw [appendPath, if_pos hroot] at hfile
    obtain ⟨hlen, rfl⟩ := fit_eq_some_iff.mp hfile
    rw [leafName, if_pos hroot]
    exact (List.take_of_length_le (Nat.le_of_lt_succ hlen)).symm
  rw [appendPath, if_neg hroot] at hfile
  rw [leafName, if_neg hroot]
  by_cases hc : (c :: rest).head? = some '/'
  · obtain rfl : c = '/' := Option.some.inj hc
    rw [if_pos hc] at hfile ⊢
    have hroom : bufSize - dir.length - 1 = 255 - dir.length := by
      unfold bufSize
      omega
    rw [← Option.some.inj hfile, List.take_append, List.take_of_length_le (by omega), ← hroom]
    rfl
  · rw [if_neg hc] at hfile ⊢
    obtain ⟨buf, hbuf, rfl⟩ := Option.map_eq_some_iff.mp hfile
    obtain ⟨hlen, rfl⟩ := fit_eq_some_iff.mp hbuf
    have hsplit : dir ++ '/' :: c :: rest = dir ++ ['/'] ++ (c :: rest) := List.append_cons ..
    rw [hsplit, List.take_append, List.take_of_length_le (Nat.le_of_lt_succ hlen)]
    congr 2
    unfold bufSize
    omega

theorem filePath_of_flat (hflat : '/' ∉ path.drop 1) :
    filePath dir path = (fit bufSize dir).bind (appendPath · path) := by
  rw [filePath, not_cgit_of_flat hflat]
  rfl

theorem exists_ending (hmime : getMimetype file = some mimetype) :
    ∃ ending, (ending, mimetype) ∈ mimetypes ∧ ending <:+ file := by
  rw [getMimetype, Option.ite_none_left_eq_some] at hmime
  obtain ⟨e, he, rfl⟩ := Option.map_eq_some_iff.mp hmime.2
  have hending : e.1.isSuffixOf file = true := by
    simpa using List.find?_some he
  exact ⟨e.1, List.mem_of_find?_eq_some he, List.isSuffixOf_iff_suffix.mp hending⟩

theorem slash_notMem_ending {e : List Char × List Char} (he : e ∈ mimetypes) : '/' ∉ e.1 := by
  revert e
  decide

/-- An ending without a slash does not reach over one. -/
theorem suffix_of_suffix_slash {ending : List Char} (hslash : '/' ∉ ending)
    (h : ending <:+ dir ++ '/' :: name) : ending <:+ name := by
  rcases List.suffix_or_suffix_of_suffix h (List.suffix_append dir ('/' :: name)) with hle | hle
  · rcases List.suffix_cons_iff.mp hle with rfl | hname
    · simp at hslash
    · exact hname
  · exact absurd (hle.subset (by simp)) hslash

/-! ## What is served -/

theorem isSome_appendPath (hdir : dir.length < 246) : (appendPath dir path).isSome := by
  have hroom : (fit bufSize (dir ++ "/test.html".toList)).isSome := by
    rw [isSome_fit_iff, List.length_append]
    change dir.length + 10 < 256
    omega
  have hslash : (fit bufSize (dir ++ ['/'])).isSome := by
    rw [isSome_fit_iff, List.length_append]
    change dir.length + 1 < 256
    omega
  rw [appendPath]
  split
  · exact hroom
  · rw [Option.isSome_map]
    split
    · rfl
    · exact hslash

theorem isSome_filePath (hdir : dir.length < 246) : (filePath dir path).isSome := by
  have hfit : fit bufSize dir = some dir :=
    fit_eq_some_iff.mpr ⟨hdir.trans (by decide), rfl⟩
  rw [filePath, hfit]
  split
  · exact isSome_appendPath (by decide)
  · exact isSome_appendPath hdir

/-- No request can write past a buffer, exactly when the name of the resource
directory is short enough. -/
theorem no_overflow_iff : (∀ req, (respond cfg req).isSome) ↔ cfg.resourcePath.length < 246 := by
  constructor
  · intro h
    have hroot := h ⟨['/'], false, false, false, false⟩
    rw [respond, if_neg (by decide), if_neg fun hproxy ↦ absurd hproxy.2 (by decide),
      if_neg (by decide), if_neg (by decide), if_neg (by decide), serveFile, Option.isSome_map,
      filePath_of_flat (by decide)] at hroot
    obtain ⟨file, hfile⟩ := Option.isSome_iff_exists.mp hroot
    obtain ⟨dir, hfit, hfile⟩ := Option.bind_eq_some_iff.mp hfile
    obtain ⟨-, rfl⟩ := fit_eq_some_iff.mp hfit
    rw [appendPath, if_pos rfl] at hfile
    have hlen := (fit_eq_some_iff.mp hfile).1
    rw [List.length_append] at hlen
    change cfg.resourcePath.length + 10 < 256 at hlen
    omega
  · intro hdir req
    unfold respond
    split
    · rfl
    split
    · rfl
    split
    · rfl
    split
    · rfl
    split
    · split
      · rfl
      next hlen =>
        rw [Option.isSome_map, isSome_fit_iff, List.length_append]
        change cfg.resourcePath.length + 9 < 1024
        omega
    · rw [serveFile, Option.isSome_map]
      exact isSome_filePath hdir

end EsNotebook.Http
