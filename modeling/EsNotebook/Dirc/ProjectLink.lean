import EsNotebook.Dirc.Gitignore
import EsNotebook.Lib.Lookup

/-!
# The link to a project

`dirc project` hands the typed location to `mkdir`, `cp` and `ln -s` alike.
The first two take a relative path from the current directory, but the link is
followed from the directory that holds it.
-/

namespace EsNotebook.Dirc

open Py FileTree

def projectsName : Str := "projects".toList

/-- What `tar` does to the tree, and `cp` with the directory it copies into. -/
structure Tools where
  tar : FileTree → FileTree
  copy : FileTree → Loc → FileTree

/-- `mkdir -p p/name`; `p` is a directory. -/
def mkdirP (os : Os) (t : FileTree) (p : Path) (name : Str) : FileTree :=
  match t.resolveDir os.cwd p with
  | some d => t.add d name .dir
  | none => t

/-- `ln -s p/name place`; `place` is a directory, and an entry that it has is
not replaced. -/
def lnS (os : Os) (t : FileTree) (p : Path) (name : Str) (place : Path) : FileTree :=
  match t.resolveDir os.cwd place with
  | some e => t.add e name (.link (p.join name))
  | none => t

/-- The tree that `ln` finds, and the directory into which the sample project
was copied. -/
def copyProject (tools : Tools) (os : Os) (t : FileTree) (p : Path) (name : Str) :
    FileTree × Option Loc :=
  let t' := mkdirP os (tools.tar t) p name
  match t'.resolveDir os.cwd (p.join name) with
  | some d => (tools.copy t' d, some d)
  | none => (t', none)

/-- `dirc_create_project` in mode 2, confirmed; `prj` is the location that is
typed. -/
def createProject (tools : Tools) (os : Os) (t : FileTree) (note_path prj : Path) (name : Str) :
    FileTree × Option Loc :=
  let prj_path := os.expanduser prj
  if t.isdir os.cwd prj_path then
    let r := copyProject tools os t prj_path name
    (lnS os r.1 prj_path name (note_path.join projectsName), r.2)
  else (t, none)

/-- The entry of the project leads to the directory with the copy. -/
def LinkLeads (tools : Tools) (os : Os) (t : FileTree) (note_path prj : Path) (name : Str) :
    Prop :=
  ∃ d, (createProject tools os t note_path prj name).2 = some d ∧
    (createProject tools os t note_path prj name).1.resolve os.cwd
      ((note_path.join projectsName).join name) = some d

/-- The location is a directory, and so is the place `e` for the link, which
has no such entry; `tar` and `cp` only add nodes, and not this one. -/
structure Ready (tools : Tools) (os : Os) (t : FileTree) (note_path prj : Path) (name : Str)
    (e : Loc) : Prop where
  location : t.isdir os.cwd (os.expanduser prj) = true
  place : t.resolveDir os.cwd (note_path.join projectsName) = some e
  free : t.node? (name :: e) = none
  tar : (tools.tar t).Extends t ∧ (tools.tar t).node? (name :: e) = none
  copy : ∀ t d, (tools.copy t d).Extends t ∧
    (t.node? (name :: e) = none → (tools.copy t d).node? (name :: e) = none)

/-- The project directory is there, and the location is the place of the link
or `prj_path/name` leads to it from there as well, within the links that are
left. -/
def LeadsFromPlace (tools : Tools) (os : Os) (t : FileTree) (note_path prj : Path) (name : Str)
    (e : Loc) : Prop :=
  let prj_path := os.expanduser prj
  let r := copyProject tools os t prj_path name
  ∃ d, r.2 = some d ∧ (t.resolveDir os.cwd prj_path = some e ∨ ∃ k k',
    r.1.Follows k (if note_path.absolute then [] else os.cwd)
      (note_path.join projectsName).comps e ∧
    r.1.Follows k' (if prj_path.absolute then [] else e) (prj_path.join name).comps d ∧
    k + k' + 1 ≤ maxLinks)

variable {tools : Tools} {os : Os} {t t' : FileTree} {note_path prj p : Path} {name : Str}
  {d e l : Loc}

theorem resolveDir_of_extends (h : t'.Extends t) (hp : t.resolveDir os.cwd p = some l) :
    t'.resolveDir os.cwd p = some l := by
  rw [resolveDir_eq_some_iff] at hp ⊢
  exact ⟨h.resolve hp.1, h _ _ hp.2⟩

theorem resolve_join_of_dir (hp : t.resolveDir os.cwd p = some d)
    (hdir : t.node? (name :: d) = some .dir) :
    t.resolve os.cwd (p.join name) = some (name :: d) := by
  obtain ⟨hresolve, hnode⟩ := resolveDir_eq_some_iff.mp hp
  obtain ⟨k, hk, hfollows⟩ := walk_eq_some_iff.mp hresolve
  exact walk_eq_some_iff.mpr ⟨k, hk, hfollows.append hnode (.dir hdir .nil)⟩

/-! ## The tree that ln finds -/

theorem createProject_eq (h : t.isdir os.cwd (os.expanduser prj) = true) :
    createProject tools os t note_path prj name =
      (lnS os (copyProject tools os t (os.expanduser prj) name).1 (os.expanduser prj) name
        (note_path.join projectsName), (copyProject tools os t (os.expanduser prj) name).2) :=
  if_pos h

theorem extends_copyProject (hcopy : ∀ t d, (tools.copy t d).Extends t) :
    (copyProject tools os t p name).1.Extends (mkdirP os (tools.tar t) p name) := by
  rw [copyProject]
  cases (mkdirP os (tools.tar t) p name).resolveDir os.cwd (p.join name) with
  | some d => exact hcopy _ d
  | none => exact .refl _

theorem mkdirP_of_resolveDir (hp : t.resolveDir os.cwd p = some d) :
    mkdirP os t p name = t.add d name .dir := by
  rw [mkdirP, hp]

theorem copyProject_snd :
    (copyProject tools os t p name).2 =
      (mkdirP os (tools.tar t) p name).resolveDir os.cwd (p.join name) := by
  rw [copyProject]
  cases h : (mkdirP os (tools.tar t) p name).resolveDir os.cwd (p.join name) with
  | some d => rfl
  | none => rfl

section Ready

variable (h : Ready tools os t note_path prj name e)

include h

theorem Ready.extends : (copyProject tools os t (os.expanduser prj) name).1.Extends
    (mkdirP os (tools.tar t) (os.expanduser prj) name) :=
  extends_copyProject fun t d ↦ (h.copy t d).1

theorem Ready.resolveDir_place : (copyProject tools os t (os.expanduser prj) name).1.resolveDir
    os.cwd (note_path.join projectsName) = some e := by
  obtain ⟨d, hd⟩ := Option.isSome_iff_exists.mp h.location
  have htar := resolveDir_of_extends h.tar.1 h.place
  have hmkdir : (mkdirP os (tools.tar t) (os.expanduser prj) name).resolveDir os.cwd
      (note_path.join projectsName) = some e := by
    rw [mkdirP_of_resolveDir (resolveDir_of_extends h.tar.1 hd)]
    exact resolveDir_of_extends (extends_add _ _ _ _) htar
  exact resolveDir_of_extends h.extends hmkdir

/-- Outside the place of the link, the entry is still free. -/
theorem Ready.node?_entry (hd : t.resolveDir os.cwd (os.expanduser prj) = some d) (hne : d ≠ e) :
    (copyProject tools os t (os.expanduser prj) name).1.node? (name :: e) = none := by
  have hmkdir : (mkdirP os (tools.tar t) (os.expanduser prj) name).node? (name :: e) = none := by
    rw [mkdirP_of_resolveDir (resolveDir_of_extends h.tar.1 hd), node?_add, if_neg]
    · exact h.tar.2
    · rintro ⟨-, heq⟩
      exact hne (List.cons.inj heq).2.symm
  rw [copyProject]
  cases (mkdirP os (tools.tar t) (os.expanduser prj) name).resolveDir os.cwd
      ((os.expanduser prj).join name) with
  | some l => exact (h.copy _ l).2 hmkdir
  | none => exact hmkdir

/-- In the place of the link the project directory itself is the entry. -/
theorem Ready.linkLeads_of_place (hd : t.resolveDir os.cwd (os.expanduser prj) = some e) :
    LinkLeads tools os t note_path prj name := by
  have htar := resolveDir_of_extends h.tar.1 hd
  have hdir : (mkdirP os (tools.tar t) (os.expanduser prj) name).node? (name :: e) =
      some .dir := by
    rw [mkdirP_of_resolveDir htar, node?_add, if_pos]
    exact ⟨⟨(resolveDir_eq_some_iff.mp htar).2, h.tar.2⟩, rfl⟩
  have hproject : (mkdirP os (tools.tar t) (os.expanduser prj) name).resolveDir os.cwd
      ((os.expanduser prj).join name) = some (name :: e) := by
    rw [resolveDir_eq_some_iff]
    refine ⟨resolve_join_of_dir ?_ hdir, hdir⟩
    rw [mkdirP_of_resolveDir htar]
    exact resolveDir_of_extends (extends_add _ _ _ _) htar
  have hplace := h.resolveDir_place
  refine ⟨name :: e, ?_, ?_⟩
  · rw [createProject_eq h.location, copyProject_snd]
    exact hproject
  · rw [createProject_eq h.location, lnS, hplace]
    have hextends := extends_add (copyProject tools os t (os.expanduser prj) name).1 e name
      (.link ((os.expanduser prj).join name))
    exact resolve_join_of_dir (resolveDir_of_extends hextends hplace)
      (hextends _ _ (h.extends _ _ hdir))

/-- Elsewhere the entry is the new link. -/
theorem Ready.linkLeads_iff_of_ne (hd : t.resolveDir os.cwd (os.expanduser prj) = some d)
    (hne : d ≠ e) : LinkLeads tools os t note_path prj name ↔
      ∃ l, (copyProject tools os t (os.expanduser prj) name).2 = some l ∧ ∃ k k',
        (copyProject tools os t (os.expanduser prj) name).1.Follows k
          (if note_path.absolute then [] else os.cwd) (note_path.join projectsName).comps e ∧
        (copyProject tools os t (os.expanduser prj) name).1.Follows k'
          (if (os.expanduser prj).absolute then [] else e)
          ((os.expanduser prj).join name).comps l ∧
        k + k' + 1 ≤ maxLinks := by
  have hplace := h.resolveDir_place
  obtain ⟨hresolve, hnode⟩ := resolveDir_eq_some_iff.mp hplace
  obtain ⟨k, hk, hfollows⟩ := walk_eq_some_iff.mp hresolve
  have hlink (l : Loc) := walk_new_link (b := maxLinks) (l := l) ((os.expanduser prj).join name)
    hfollows hnode (h.node?_entry hd hne)
  rw [LinkLeads, createProject_eq h.location, lnS, hplace]
  constructor
  · rintro ⟨l, hl, hleads⟩
    obtain ⟨k', hle, htarget⟩ := (hlink l).mp hleads
    exact ⟨l, hl, k, k', hfollows, htarget, hle⟩
  · rintro ⟨l, hl, k₁, k', hfollows₁, htarget, hle⟩
    obtain ⟨rfl, -⟩ := hfollows.unique hfollows₁
    exact ⟨l, hl, (hlink l).mpr ⟨k', hle, htarget⟩⟩

end Ready

/-- An absolute location leads to the copy from everywhere; only the number of
links can be too large. -/
theorem Ready.exists_follows_of_absolute (h : Ready tools os t note_path prj name e)
    (habsolute : (os.expanduser prj).absolute = true)
    (hl : (copyProject tools os t (os.expanduser prj) name).2 = some l) :
    ∃ k ≤ maxLinks, (copyProject tools os t (os.expanduser prj) name).1.Follows k
      (if (os.expanduser prj).absolute then [] else e) ((os.expanduser prj).join name).comps l := by
  rw [copyProject_snd, resolveDir_eq_some_iff] at hl
  have hresolve := h.extends.resolve hl.1
  have hroot : ((os.expanduser prj).join name).absolute = true := habsolute
  rw [FileTree.resolve, if_pos hroot] at hresolve
  obtain ⟨k, hk, hfollows⟩ := walk_eq_some_iff.mp hresolve
  rw [if_pos habsolute]
  exact ⟨k, hk, hfollows⟩

/-- The link leads to the project exactly when the path it is given leads there
also from the place of the link. -/
theorem link_leads_to_project_iff (tools : Tools) (os : Os) (t : FileTree)
    (note_path prj : Path) (name : Str) (e : Loc)
    (h : Ready tools os t note_path prj name e) :
    LinkLeads tools os t note_path prj name ↔
      LeadsFromPlace tools os t note_path prj name e := by
  obtain ⟨d, hd⟩ := Option.isSome_iff_exists.mp h.location
  by_cases hde : d = e
  · subst hde
    have hleads := h.linkLeads_of_place hd
    refine iff_of_true hleads ?_
    obtain ⟨l, hl, -⟩ := hleads
    rw [createProject_eq h.location] at hl
    exact ⟨l, hl, .inl hd⟩
  · have hother : t.resolveDir os.cwd (os.expanduser prj) ≠ some e := by
      rw [hd]
      exact fun heq ↦ hde (Option.some.inj heq)
    rw [h.linkLeads_iff_of_ne hd hde, LeadsFromPlace]
    refine exists_congr fun l ↦ and_congr_right fun _ ↦ ?_
    exact ⟨.inr, fun hor ↦ hor.resolve_left hother⟩

/-- The template with one folder, and the copy of that folder. -/
def sampleTools : Tools where
  tar t := ((((t.add ["tmp".toList] "annual_template".toList .dir).add
    ["annual_template".toList, "tmp".toList] projectsName .dir).add
    [projectsName, "annual_template".toList, "tmp".toList] "sample_project".toList .dir).add
    ["sample_project".toList, projectsName, "annual_template".toList, "tmp".toList]
      "mgnt".toList .dir)
  copy t d := t.add d "mgnt".toList .dir

/-- The directories of the notes and of the projects. -/
def userTree : FileTree :=
  (((FileTree.empty.add [] "tmp".toList .dir).add [] "note".toList .dir).add
    ["note".toList] projectsName .dir).add [] "user".toList .dir |>.add
    ["user".toList] "work".toList .dir

def userOs : Os where
  cwd := ["user".toList]
  home := fun _ ↦ some (Loc.path ["user".toList])
  unresolved := fun _ _ ↦ none

def homeWork : Path := { absolute := false, comps := [.name ['~'], .name "work".toList] }

def work : Path := { absolute := false, comps := [.name "work".toList] }

theorem ready_of_location (prj : Path)
    (hlocation : userTree.isdir userOs.cwd (userOs.expanduser prj) = true) :
    Ready sampleTools userOs userTree (Loc.path ["note".toList]) prj "acp".toList
      [projectsName, "note".toList] := by
  have hadd (t : FileTree) (d : Loc) (n : Str) (k : Node) (hn : n ≠ "acp".toList) :
      t.node? ("acp".toList :: [projectsName, "note".toList]) = none →
      (t.add d n k).node? ("acp".toList :: [projectsName, "note".toList]) = none := by
    intro hfree
    rw [node?_add, if_neg, hfree]
    rintro ⟨-, heq⟩
    exact hn (List.cons.inj heq).1.symm
  refine ⟨hlocation, by decide +kernel, by decide +kernel, ⟨?_, by decide +kernel⟩, ?_⟩
  · exact (((extends_add _ _ _ _).trans (extends_add _ _ _ _)).trans (extends_add _ _ _ _)).trans
      (extends_add _ _ _ _)
  · exact fun t d ↦ ⟨extends_add _ _ _ _, hadd t d _ _ (by decide +kernel)⟩

theorem link_leads_to_project_in_home :
    LinkLeads sampleTools userOs userTree (Loc.path ["note".toList]) homeWork "acp".toList := by
  have hready := ready_of_location homeWork (by decide +kernel)
  apply (link_leads_to_project_iff _ _ _ _ _ _ _ hready).mpr
  refine ⟨["acp".toList, "work".toList, "user".toList], by decide +kernel, .inr ⟨0, 0, ?_, ?_, ?_⟩⟩
  · exact .dir (by decide +kernel) (.dir (by decide +kernel) .nil)
  · exact .dir (by decide +kernel) (.dir (by decide +kernel) (.dir (by decide +kernel) .nil))
  · decide

/-- The same directory, typed relative to the current one. -/
theorem link_dangles_of_relative :
    Ready sampleTools userOs userTree (Loc.path ["note".toList]) work "acp".toList
      [projectsName, "note".toList] ∧
    ¬LinkLeads sampleTools userOs userTree (Loc.path ["note".toList]) work "acp".toList := by
  refine ⟨ready_of_location work (by decide +kernel), ?_⟩
  rintro ⟨d, -, hleads⟩
  have hnone : (createProject sampleTools userOs userTree (Loc.path ["note".toList]) work
      "acp".toList).1.resolve userOs.cwd
      (((Loc.path ["note".toList]).join projectsName).join "acp".toList) = none := by
    decide +kernel
  rw [hnone] at hleads
  cases hleads

end EsNotebook.Dirc
