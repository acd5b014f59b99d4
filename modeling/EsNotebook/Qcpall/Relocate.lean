import EsNotebook.Lib.PyText

/-!
# Copying patched files into the SDK

`qcpall.py` looks for the SDK root and for the top directory of a file with
`rfind` and `find`.  Both find names that are only part of a path component;
the copies go to their own place exactly when the occurrences that are found
are whole components.
-/

namespace EsNotebook.Qcpall

open Py

def sdkName : Str := "qualcomm_sdk".toList

def topdirs : List Str :=
  ["qsdk".toList, "BOOT.BF.3.1.1".toList, "meta-scripts".toList, "IPQ4019.ILQ.5.0".toList]

/-- `get_qualcomm_sdk_path` in the working directory `mypath`. -/
def getQualcommSdkPath (isdir : Str → Bool) (mypath : Str) : Option Str :=
  match rfind sdkName mypath with
  | some pos => some (mypath.take (pos + 1 + "qualcom_sdk".length))
  | none =>
      if isdir (mypath ++ ['/'] ++ sdkName) then some (mypath ++ ['/'] ++ sdkName)
      else none

/-- One `cp source (sdk + "/" + rest)`. -/
structure Copy where
  source : Str
  sdk : Str
  rest : Str
  deriving DecidableEq, Repr

def Copy.target (c : Copy) : Str := c.sdk ++ ['/'] ++ c.rest

inductive Relocated where
  | copied (c : Copy)
  /-- `Need Manaully Copy` -/
  | manual (filepath : Str)
  deriving DecidableEq, Repr

/-- The loop of `relocate_files` over the top directories.  Without an SDK
root the concatenation raises `TypeError`, here `none`. -/
def relocateTo (sdk : Option Str) (filepath : Str) : List Str → Option Relocated
  | [] => some (.manual filepath)
  | topdir :: rest =>
      match find topdir filepath with
      | some pos => sdk.map fun dir ↦ .copied ⟨filepath, dir, filepath.drop pos⟩
      | none => relocateTo sdk filepath rest

def relocateFiles (isdir : Str → Bool) (mypath filepath : Str) : Option Relocated :=
  relocateTo (getQualcommSdkPath isdir mypath) filepath topdirs

/-- The main loop over the modified files; an exception ends the program. -/
def qcpall (isdir : Str → Bool) (mypath : Str) : List Str → List Relocated
  | [] => []
  | filepath :: rest =>
      match relocateFiles isdir mypath filepath with
      | some r => r :: qcpall isdir mypath rest
      | none => []

/-! ## Path components -/

/-- `c` is a whole component of the path `pre ++ c ++ post`. -/
structure ComponentAt (pre c post : Str) : Prop where
  before : pre = [] ∨ pre.getLast? = some '/'
  after : post = [] ∨ post.head? = some '/'
  no_slash : '/' ∉ c

/-- One of the components is a top directory. -/
def HasTopdir (p : Str) : Prop :=
  ∃ name ∈ topdirs, ∃ pre post, p = pre ++ name ++ post ∧ ComponentAt pre name post

/-- The directory `S` is named `qualcomm_sdk` and contains the working
directory or is its child. -/
def IsSdkRoot (mypath S : Str) : Prop :=
  (∃ pre, S = pre ++ sdkName ∧ ComponentAt pre sdkName []) ∧
    ((∃ post, mypath = S ++ post ∧ (post = [] ∨ post.head? = some '/')) ∨
      S = mypath ++ ['/'] ++ sdkName)

/-- Every copy goes to its own place, and nothing is passed over silently. -/
structure CopiedToOwnPlace (isdir : Str → Bool) (mypath : Str) (paths : List Str) : Prop where
  sdk : ∀ c, .copied c ∈ qcpall isdir mypath paths → IsSdkRoot mypath c.sdk
  rest : ∀ c, .copied c ∈ qcpall isdir mypath paths → ∃ name ∈ topdirs, ∃ pre post,
    c.source = pre ++ name ++ post ∧ c.rest = name ++ post ∧ ComponentAt pre name post
  manual : ∀ p ∈ paths, ¬HasTopdir p → .manual p ∈ qcpall isdir mypath paths ∧
    ∀ c, .copied c ∈ qcpall isdir mypath paths → c.source ≠ p
  distinct : ∀ c c', .copied c ∈ qcpall isdir mypath paths →
    .copied c' ∈ qcpall isdir mypath paths → c.target = c'.target → c.source = c'.source

/-! ## What the searches find -/

/-- One of the four names occurs somewhere. -/
def Occurs (p : Str) : Prop := ∃ name ∈ topdirs, name <:+: p

/-- `name` is the first of the four that occurs in `p`, and this is its first
occurrence. -/
structure Hit (p name pre post : Str) : Prop where
  order : ∃ before after, topdirs = before ++ name :: after ∧ ∀ t ∈ before, ¬t <:+: p
  split : p = pre ++ name ++ post
  first : ∀ j < pre.length, ¬name <+: p.drop j

/-- The last occurrence of `qualcomm_sdk` in the working directory, if there
is one, is a whole component. -/
def LastIsComponent (mypath : Str) : Prop :=
  ∀ pre post, mypath = pre ++ sdkName ++ post →
    (∀ j > pre.length, ¬sdkName <+: mypath.drop j) → ComponentAt pre sdkName post

/-- There is an SDK root to be found. -/
def Located (isdir : Str → Bool) (mypath : Str) : Prop :=
  sdkName <:+: mypath ∨ isdir (mypath ++ ['/'] ++ sdkName) = true

/-- The occurrences that the searches find are whole components, and two
paths differ also behind them.  Without an SDK root the names must not occur
in or before a path without a top directory. -/
structure OccurrencesFit (isdir : Str → Bool) (mypath : Str) (paths : List Str) : Prop where
  sdk : Located isdir mypath → (∃ p ∈ paths, Occurs p) → LastIsComponent mypath
  names : Located isdir mypath → ∀ p ∈ paths, ∀ name pre post,
    Hit p name pre post → ComponentAt pre name post
  distinct : Located isdir mypath → ∀ p ∈ paths, ∀ q ∈ paths,
    ∀ name pre post name' pre' post', Hit p name pre post → Hit q name' pre' post' →
      name ++ post = name' ++ post' → p = q
  unlocated : ¬Located isdir mypath → ∀ q ∈ paths, ¬HasTopdir q →
    ∃ before after, paths = before ++ q :: after ∧ ∀ p ∈ before ++ [q], ¬Occurs p

theorem split_of_prefix_drop {s sub : Str} {i : ℕ} (hsub : sub ≠ []) (h : sub <+: s.drop i) :
    ∃ pre post, s = pre ++ sub ++ post ∧ pre.length = i := by
  obtain ⟨post, hpost⟩ := h
  have hlt : i < s.length := by
    by_contra hge
    rw [List.drop_eq_nil_of_le (by omega)] at hpost
    exact hsub (List.append_eq_nil_iff.mp hpost).1
  refine ⟨s.take i, post, ?_, by simp; omega⟩
  rw [List.append_assoc, hpost, List.take_append_drop]

theorem relocateTo_of_not_occurs {sdk : Option Str} {p : Str} {names : List Str}
    (h : ∀ t ∈ names, ¬t <:+: p) : relocateTo sdk p names = some (.manual p) := by
  induction names with
  | nil => rfl
  | cons t names ih =>
      rw [relocateTo, find_eq_none_iff.mpr (h t (by simp))]
      exact ih fun t ht ↦ h t (by simp [ht])

theorem relocateTo_of_split {sdk : Option Str} {p name pre post : Str} {before after : List Str}
    (hbefore : ∀ t ∈ before, ¬t <:+: p) (hsplit : p = pre ++ name ++ post)
    (hfirst : ∀ j < pre.length, ¬name <+: p.drop j) :
    relocateTo sdk p (before ++ name :: after) =
      sdk.map fun dir ↦ .copied ⟨p, dir, name ++ post⟩ := by
  induction before with
  | nil =>
      have hin : name <:+: p := ⟨pre, post, hsplit.symm⟩
      have hdrop : p.drop pre.length = name ++ post := by
        rw [hsplit, List.append_assoc, List.drop_left]
      cases hfind : find name p with
      | none => exact absurd hin (find_eq_none_iff.mp hfind)
      | some pos =>
          obtain ⟨hfound, hfirst'⟩ := find_eq_some hfind
          have hpos : pos = pre.length := by
            apply le_antisymm
            · by_contra hlt
              exact hfirst' pre.length (by omega) ⟨post, hdrop.symm⟩
            · by_contra hlt
              exact hfirst pos (by omega) hfound
          simp only [List.nil_append, relocateTo, hfind, hpos, hdrop]
  | cons t before ih =>
      rw [List.cons_append, relocateTo, find_eq_none_iff.mpr (hbefore t (by simp))]
      exact ih fun t ht ↦ hbefore t (by simp [ht])

/-- The slice of the source is long enough although it counts the name with
one letter less. -/
theorem sdkName_length : sdkName.length = 1 + "qualcom_sdk".length := by decide +kernel

theorem sdkName_no_slash : '/' ∉ sdkName := by decide

theorem topdirs_ne_nil {name : Str} (h : name ∈ topdirs) : name ≠ [] := by
  revert name
  decide

/-- No two of the names begin alike. -/
theorem topdirs_eq_of_head {name name' : Str} (h : name ∈ topdirs) (h' : name' ∈ topdirs)
    (hhead : name.head? = name'.head?) : name = name' := by
  have hall : ∀ a ∈ topdirs, ∀ b ∈ topdirs, a.head? = b.head? → a = b := by decide
  exact hall name h name' h' hhead

theorem exists_first_occurring {names : List Str} {p : Str} (h : ∃ t ∈ names, t <:+: p) :
    ∃ before name after, names = before ++ name :: after ∧ name <:+: p ∧
      ∀ t ∈ before, ¬t <:+: p := by
  induction names with
  | nil => simp at h
  | cons t names ih =>
      by_cases ht : t <:+: p
      · exact ⟨[], t, names, rfl, ht, by simp⟩
      · obtain ⟨before, name, after, rfl, hin, hbefore⟩ := ih (by simpa [ht] using h)
        refine ⟨t :: before, name, after, rfl, hin, ?_⟩
        intro t' ht'
        rcases List.mem_cons.mp ht' with rfl | ht'
        · exact ht
        · exact hbefore t' ht'

theorem exists_hit {p : Str} (h : Occurs p) : ∃ name pre post, Hit p name pre post := by
  obtain ⟨before, name, after, htop, hin, hbefore⟩ := exists_first_occurring h
  have hmem : name ∈ topdirs := by simp [htop]
  obtain ⟨pos, hfind⟩ : ∃ pos, find name p = some pos := by
    rw [← Option.ne_none_iff_exists']
    exact fun hnone ↦ find_eq_none_iff.mp hnone hin
  obtain ⟨hfound, hfirst⟩ := find_eq_some hfind
  obtain ⟨pre, post, hsplit, rfl⟩ := split_of_prefix_drop (topdirs_ne_nil hmem) hfound
  exact ⟨name, pre, post, ⟨before, after, htop, hbefore⟩, hsplit, hfirst⟩

theorem Hit.mem {p name pre post : Str} (h : Hit p name pre post) : name ∈ topdirs := by
  obtain ⟨before, after, htop, -⟩ := h.order
  simp [htop]

theorem Hit.occurs {p name pre post : Str} (h : Hit p name pre post) : Occurs p :=
  ⟨name, h.mem, pre, post, h.split.symm⟩

theorem relocateTo_of_hit {sdk : Option Str} {p name pre post : Str} (h : Hit p name pre post) :
    relocateTo sdk p topdirs = sdk.map fun dir ↦ .copied ⟨p, dir, name ++ post⟩ := by
  obtain ⟨before, after, htop, hbefore⟩ := h.order
  rw [htop]
  exact relocateTo_of_split hbefore h.split h.first

/-! ## The SDK root -/

variable {isdir : Str → Bool} {mypath : Str} {paths : List Str}

theorem getQualcommSdkPath_eq_none_iff :
    getQualcommSdkPath isdir mypath = none ↔ ¬Located isdir mypath := by
  unfold getQualcommSdkPath Located
  cases hfind : rfind sdkName mypath with
  | some pos =>
      have hin : sdkName <:+: mypath := by
        by_contra hno
        rw [rfind_eq_none_iff.mpr hno] at hfind
        cases hfind
      simp [hin]
  | none => simp [rfind_eq_none_iff.mp hfind]

theorem eq_of_last {s sub pre post pre' post' : Str} (h : s = pre ++ sub ++ post)
    (hlast : ∀ j > pre.length, ¬sub <+: s.drop j) (h' : s = pre' ++ sub ++ post')
    (hlast' : ∀ j > pre'.length, ¬sub <+: s.drop j) : pre = pre' ∧ post = post' := by
  have hfound {a b : Str} (hs : s = a ++ sub ++ b) : sub <+: s.drop a.length := by
    rw [hs, List.append_assoc, List.drop_left]
    exact List.prefix_append _ _
  have hlen : pre.length = pre'.length := by
    apply le_antisymm
    · by_contra hlt
      exact hlast' _ (by omega) (hfound h)
    · by_contra hlt
      exact hlast _ (by omega) (hfound h')
  rw [h, List.append_assoc, List.append_assoc] at h'
  obtain ⟨rfl, hrest⟩ := List.append_inj h' hlen
  exact ⟨rfl, List.append_cancel_left hrest⟩

/-- The root that is found is a right one exactly when the last occurrence is
a whole component. -/
theorem isSdkRoot_iff {S : Str} (h : getQualcommSdkPath isdir mypath = some S) :
    IsSdkRoot mypath S ↔ LastIsComponent mypath := by
  unfold getQualcommSdkPath at h
  split at h
  case h_1 pos hfind =>
    obtain ⟨hfound, hlast⟩ := rfind_eq_some (by decide) hfind
    obtain ⟨pre, post, hsplit, rfl⟩ := split_of_prefix_drop (by decide) hfound
    have hS : S = pre ++ sdkName := by
      have hlen : pre.length + 1 + "qualcom_sdk".length = (pre ++ sdkName).length := by
        rw [List.length_append, sdkName_length, Nat.add_assoc]
      rw [← Option.some.inj h, hsplit, hlen, List.take_left]
    subst hS
    constructor
    · rintro ⟨⟨pre', hpre', hcomponent⟩, hcontains⟩
      obtain rfl : pre = pre' := List.append_cancel_right hpre'
      have hafter : post = [] ∨ post.head? = some '/' := by
        rcases hcontains with ⟨post', hpost', hafter⟩ | hchild
        · rw [hsplit] at hpost'
          exact List.append_cancel_left hpost' ▸ hafter
        · have hlen := congrArg List.length hchild
          simp only [hsplit, List.length_append, List.length_cons, List.length_nil] at hlen
          omega
      intro pre₂ post₂ hsplit₂ hlast₂
      obtain ⟨rfl, rfl⟩ := eq_of_last hsplit hlast hsplit₂ hlast₂
      exact ⟨hcomponent.before, hafter, sdkName_no_slash⟩
    · intro hcomponent
      obtain ⟨hbefore, hafter, -⟩ := hcomponent pre post hsplit hlast
      exact ⟨⟨pre, rfl, hbefore, .inl rfl, sdkName_no_slash⟩, .inl ⟨post, hsplit, hafter⟩⟩
  case h_2 hnone =>
    have hno : ¬sdkName <:+: mypath := rfind_eq_none_iff.mp hnone
    split at h
    · obtain rfl := Option.some.inj h
      have hcomponent : ComponentAt (mypath ++ ['/']) sdkName [] :=
        { before := .inr (by simp), after := .inl rfl, no_slash := sdkName_no_slash }
      refine iff_of_true ⟨⟨_, rfl, hcomponent⟩, .inr rfl⟩ ?_
      intro pre post hsplit
      exact absurd ⟨pre, post, hsplit.symm⟩ hno
    · cases h

/-! ## The main loop -/

theorem relocateTo_isSome (S p : Str) : ∃ r, relocateTo (some S) p topdirs = some r := by
  by_cases hoccurs : Occurs p
  · obtain ⟨name, pre, post, hhit⟩ := exists_hit hoccurs
    exact ⟨_, relocateTo_of_hit hhit⟩
  · exact ⟨_, relocateTo_of_not_occurs fun t ht hin ↦ hoccurs ⟨t, ht, hin⟩⟩

theorem mem_qcpall_of_located {S : Str} (h : getQualcommSdkPath isdir mypath = some S)
    {r : Relocated} : r ∈ qcpall isdir mypath paths ↔
      ∃ p ∈ paths, relocateTo (some S) p topdirs = some r := by
  induction paths with
  | nil => simp [qcpall]
  | cons p paths ih =>
      obtain ⟨r', hr'⟩ := relocateTo_isSome S p
      simp only [qcpall, relocateFiles, h, hr', List.mem_cons, ih]
      constructor
      · rintro (rfl | ⟨q, hq, hcopied⟩)
        · exact ⟨p, .inl rfl, hr'⟩
        · exact ⟨q, .inr hq, hcopied⟩
      · rintro ⟨q, rfl | hq, hcopied⟩
        · exact .inl (Option.some.inj (hcopied.symm.trans hr'))
        · exact .inr ⟨q, hq, hcopied⟩

theorem mem_qcpall_of_unlocated (h : getQualcommSdkPath isdir mypath = none) {r : Relocated} :
    r ∈ qcpall isdir mypath paths ↔ ∃ q before after, r = .manual q ∧
      paths = before ++ q :: after ∧ ∀ p ∈ before ++ [q], ¬Occurs p := by
  induction paths with
  | nil => simp [qcpall]
  | cons p paths ih =>
      by_cases hoccurs : Occurs p
      · obtain ⟨name, pre, post, hhit⟩ := exists_hit hoccurs
        simp only [qcpall, relocateFiles, h, relocateTo_of_hit hhit, Option.map_none,
          List.not_mem_nil, false_iff]
        rintro ⟨q, before, after, -, hsplit, hnone⟩
        cases before with
        | nil =>
            obtain ⟨rfl, -⟩ := List.cons.inj hsplit
            exact hnone p (by simp) hoccurs
        | cons p' before =>
            obtain ⟨rfl, -⟩ := List.cons.inj hsplit
            exact hnone p (by simp) hoccurs
      · have hmanual : relocateTo none p topdirs = some (.manual p) :=
          relocateTo_of_not_occurs fun t ht hin ↦ hoccurs ⟨t, ht, hin⟩
        simp only [qcpall, relocateFiles, h, hmanual, List.mem_cons, ih]
        constructor
        · rintro (rfl | ⟨q, before, after, rfl, rfl, hnone⟩)
          · exact ⟨p, [], paths, rfl, rfl, by simpa using hoccurs⟩
          · refine ⟨q, p :: before, after, rfl, rfl, ?_⟩
            intro p' hp'
            rcases List.mem_cons.mp hp' with rfl | hp'
            · exact hoccurs
            · exact hnone p' hp'
        · rintro ⟨q, before, after, rfl, hsplit, hnone⟩
          cases before with
          | nil =>
              obtain ⟨rfl, -⟩ := List.cons.inj hsplit
              exact .inl rfl
          | cons p' before =>
              obtain ⟨rfl, rfl⟩ := List.cons.inj hsplit
              exact .inr ⟨q, before, after, rfl, rfl, fun p' hp' ↦ hnone p' (by simp [hp'])⟩

theorem copied_mem_iff {S : Str} (h : getQualcommSdkPath isdir mypath = some S) {c : Copy} :
    .copied c ∈ qcpall isdir mypath paths ↔ ∃ p ∈ paths, ∃ name pre post,
      Hit p name pre post ∧ c = ⟨p, S, name ++ post⟩ := by
  rw [mem_qcpall_of_located h]
  constructor
  · rintro ⟨p, hp, hcopied⟩
    by_cases hoccurs : Occurs p
    · obtain ⟨name, pre, post, hhit⟩ := exists_hit hoccurs
      rw [relocateTo_of_hit hhit] at hcopied
      refine ⟨p, hp, name, pre, post, hhit, ?_⟩
      simpa using hcopied.symm
    · rw [relocateTo_of_not_occurs fun t ht hin ↦ hoccurs ⟨t, ht, hin⟩] at hcopied
      simp at hcopied
  · rintro ⟨p, hp, name, pre, post, hhit, rfl⟩
    exact ⟨p, hp, relocateTo_of_hit hhit⟩

theorem HasTopdir.occurs {p : Str} (h : HasTopdir p) : Occurs p := by
  obtain ⟨name, hname, pre, post, rfl, -⟩ := h
  exact ⟨name, hname, pre, post, rfl⟩

theorem copiedToOwnPlace_of_occurrencesFit (h : OccurrencesFit isdir mypath paths) :
    CopiedToOwnPlace isdir mypath paths := by
  cases hroot : getQualcommSdkPath isdir mypath with
  | none =>
      have hlocated := getQualcommSdkPath_eq_none_iff.mp hroot
      have hcopied (c) : .copied c ∉ qcpall isdir mypath paths := by
        intro hmem
        obtain ⟨q, before, after, hq, -⟩ := (mem_qcpall_of_unlocated hroot).mp hmem
        cases hq
      refine ⟨fun c hc ↦ absurd hc (hcopied c), fun c hc ↦ absurd hc (hcopied c), ?_,
        fun c _ hc ↦ absurd hc (hcopied c)⟩
      intro q hq hnone
      obtain ⟨before, after, hsplit, hoccurs⟩ := h.unlocated hlocated q hq hnone
      refine ⟨?_, fun c hc ↦ absurd hc (hcopied c)⟩
      exact (mem_qcpall_of_unlocated hroot).mpr ⟨q, before, after, rfl, hsplit, hoccurs⟩
  | some S =>
      have hlocated : Located isdir mypath := by
        by_contra hno
        rw [getQualcommSdkPath_eq_none_iff.mpr hno] at hroot
        cases hroot
      have hoccurs {p : Str} (hp : p ∈ paths) (hnone : ¬HasTopdir p) : ¬Occurs p := by
        intro hoccurs
        obtain ⟨name, pre, post, hhit⟩ := exists_hit hoccurs
        apply hnone
        exact ⟨name, hhit.mem, pre, post, hhit.split, h.names hlocated p hp _ _ _ hhit⟩
      constructor
      case sdk =>
        intro c hc
        obtain ⟨p, hp, name, pre, post, hhit, rfl⟩ := (copied_mem_iff hroot).mp hc
        apply (isSdkRoot_iff hroot).mpr
        exact h.sdk hlocated ⟨p, hp, hhit.occurs⟩
      case rest =>
        intro c hc
        obtain ⟨p, hp, name, pre, post, hhit, rfl⟩ := (copied_mem_iff hroot).mp hc
        exact ⟨name, hhit.mem, pre, post, hhit.split, rfl, h.names hlocated p hp _ _ _ hhit⟩
      case manual =>
        intro p hp hnone
        refine ⟨(mem_qcpall_of_located hroot).mpr ⟨p, hp, ?_⟩, ?_⟩
        · apply relocateTo_of_not_occurs
          exact fun t ht hin ↦ hoccurs hp hnone ⟨t, ht, hin⟩
        · rintro c hc rfl
          obtain ⟨p, hp', name, pre, post, hhit, rfl⟩ := (copied_mem_iff hroot).mp hc
          exact hoccurs hp hnone hhit.occurs
      case distinct =>
        intro c c' hc hc' htarget
        obtain ⟨p, hp, name, pre, post, hhit, rfl⟩ := (copied_mem_iff hroot).mp hc
        obtain ⟨q, hq, name', pre', post', hhit', rfl⟩ := (copied_mem_iff hroot).mp hc'
        apply h.distinct hlocated p hp q hq _ _ _ _ _ _ hhit hhit'
        exact List.append_cancel_left htarget

theorem occurrencesFit_of_copiedToOwnPlace (h : CopiedToOwnPlace isdir mypath paths) :
    OccurrencesFit isdir mypath paths := by
  have hroot (hlocated : Located isdir mypath) :
      ∃ S, getQualcommSdkPath isdir mypath = some S := by
    rw [← Option.ne_none_iff_exists']
    exact fun hnone ↦ getQualcommSdkPath_eq_none_iff.mp hnone hlocated
  constructor
  case sdk =>
    rintro hlocated ⟨p, hp, hoccurs⟩
    obtain ⟨S, hS⟩ := hroot hlocated
    obtain ⟨name, pre, post, hhit⟩ := exists_hit hoccurs
    apply (isSdkRoot_iff hS).mp
    exact h.sdk _ ((copied_mem_iff hS).mpr ⟨p, hp, name, pre, post, hhit, rfl⟩)
  case names =>
    intro hlocated p hp name pre post hhit
    obtain ⟨S, hS⟩ := hroot hlocated
    obtain ⟨name', hname', pre', post', hsplit', hrest, hcomponent⟩ :=
      h.rest _ ((copied_mem_iff hS).mpr ⟨p, hp, name, pre, post, hhit, rfl⟩)
    dsimp only at hsplit' hrest
    -- both names stand at the head of the same rest
    have hname : name = name' := by
      apply topdirs_eq_of_head hhit.mem hname'
      have hhead := congrArg List.head? hrest
      rwa [List.head?_append_of_ne_nil _ (topdirs_ne_nil hhit.mem),
        List.head?_append_of_ne_nil _ (topdirs_ne_nil hname')] at hhead
    subst hname
    obtain rfl : post = post' := List.append_cancel_left hrest
    have hpre : pre ++ (name ++ post) = pre' ++ (name ++ post) := by
      rw [← List.append_assoc, ← List.append_assoc, ← hsplit', hhit.split]
    rwa [List.append_cancel_right hpre]
  case distinct =>
    intro hlocated p hp q hq name pre post name' pre' post' hhit hhit' hrest
    obtain ⟨S, hS⟩ := hroot hlocated
    have hc := (copied_mem_iff hS).mpr ⟨p, hp, name, pre, post, hhit, rfl⟩
    have hc' := (copied_mem_iff hS).mpr ⟨q, hq, name', pre', post', hhit', rfl⟩
    apply h.distinct _ _ hc hc'
    rw [Copy.target, Copy.target, hrest]
  case unlocated =>
    intro hlocated q hq hnone
    obtain ⟨hmanual, -⟩ := h.manual q hq hnone
    rw [mem_qcpall_of_unlocated (getQualcommSdkPath_eq_none_iff.mpr hlocated)] at hmanual
    obtain ⟨q', before, after, hq', hsplit, hoccurs⟩ := hmanual
    obtain rfl : q = q' := Relocated.manual.inj hq'
    exact ⟨before, after, hsplit, hoccurs⟩

/-- The copies go to their own place exactly when the occurrences fit. -/
theorem copiedToOwnPlace_iff_occurrencesFit (isdir : Str → Bool) (mypath : Str)
    (paths : List Str) :
    CopiedToOwnPlace isdir mypath paths ↔ OccurrencesFit isdir mypath paths :=
  ⟨occurrencesFit_of_copiedToOwnPlace, copiedToOwnPlace_of_occurrencesFit⟩

/-- In `my_qsdk` only a part of the component is the name `qsdk`. -/
theorem my_qsdk_is_misplaced :
    ¬CopiedToOwnPlace (fun _ ↦ false) "/w/qualcomm_sdk/patch".toList
      ["my_qsdk/Makefile".toList] := by
  intro h
  have hcopy : .copied ⟨"my_qsdk/Makefile".toList, "/w/qualcomm_sdk".toList,
      "qsdk/Makefile".toList⟩ ∈
        qcpall (fun _ ↦ false) "/w/qualcomm_sdk/patch".toList ["my_qsdk/Makefile".toList] := by
    decide +kernel
  obtain ⟨name, -, pre, post, hsplit, hrest, hcomponent⟩ := h.rest _ hcopy
  dsimp only at hsplit hrest
  have hpre : pre = "my_".toList := by
    have hboth : pre ++ "qsdk/Makefile".toList = "my_".toList ++ "qsdk/Makefile".toList := by
      calc pre ++ "qsdk/Makefile".toList
        _ = pre ++ (name ++ post) := by rw [hrest]
        _ = "my_qsdk/Makefile".toList := by rw [← List.append_assoc, ← hsplit]
        _ = "my_".toList ++ "qsdk/Makefile".toList := by decide
    exact List.append_cancel_right hboth
  rcases hcomponent.before with hnil | hslash
  · exact absurd (hpre.symm.trans hnil) (by decide)
  · rw [hpre] at hslash
    exact absurd hslash (by decide)

end EsNotebook.Qcpall
