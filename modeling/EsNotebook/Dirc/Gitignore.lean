import EsNotebook.Lib.Descent
import EsNotebook.Lib.FileTree

/-!
# Adding .gitignore

`dirc addgit` goes down into all directories, also behind links, and does not
remember where it has been.  It ends exactly when no directory below the
starting one leads back to itself.
-/

namespace EsNotebook.Dirc

open Py Relation

/-- The current directory, the home directories and what `realpath` makes of
a path that leads nowhere. -/
structure Os where
  cwd : Loc
  home : Str → Option Path
  unresolved : FileTree → Path → Option Loc

/-- `os.path.expanduser`; an unknown user leaves the path as it is. -/
def Os.expanduser (os : Os) (p : Path) : Path :=
  if p.absolute then p
  else
    match p.comps with
    | .name ('~' :: user) :: cs =>
        match os.home user with
        | some h => { h with comps := h.comps ++ cs }
        | none => p
    | _ => p

/-- `os.path.realpath` -/
def Os.realpath (os : Os) (t : FileTree) (p : Path) : Option Loc :=
  (t.resolve os.cwd p).or (os.unresolved t p)

def gitfile : Str := ".gitignore".toList

/-- What the calls leave: the tree, the directories they reported and whether
an exception was raised. -/
structure Visit where
  tree : FileTree
  dirs : List Loc
  raised : Bool

/-- The loop of `add_gitignore` over the names in the directory `d`. -/
def visitSubdirs (os : Os) (visit : FileTree → Path → Option Visit) (d : Loc) :
    FileTree → List Str → Option Visit
  | t, [] => some ⟨t, [], false⟩
  | t, sub :: subs =>
      if t.isdir os.cwd (d.path.join sub) then
        (visit t (d.path.join sub)).bind fun v ↦
          if v.raised then some v
          else (visitSubdirs os visit d v.tree subs).map fun w ↦ { w with dirs := v.dirs ++ w.dirs }
      else visitSubdirs os visit d t subs

/-- The tree after `add_gitignore` has looked for the file of a directory; `sh`
is what the command `echo *.swp > .gitignore` does there. -/
def withGitfile (os : Os) (sh : FileTree → Loc → FileTree) (t : FileTree) (exactpath : Loc) :
    FileTree :=
  if t.isfile os.cwd (exactpath.path.join gitfile) then t else sh t exactpath

/-- `add_gitignore` with at most `fuel` nested calls.  `listdir` raises where
there is no directory. -/
def addGitignore (os : Os) (sh : FileTree → Loc → FileTree) : ℕ → FileTree → Path → Option Visit
  | 0, _, _ => none
  | fuel + 1, t, dirpath =>
      if t.isdir os.cwd dirpath then
        match os.realpath t (os.expanduser dirpath) with
        | none => some ⟨t, [], true⟩
        | some exactpath =>
            let t' := withGitfile os sh t exactpath
            if t'.node? exactpath = some .dir then
              (visitSubdirs os (addGitignore os sh fuel) exactpath t' (t'.listdir exactpath)).map
                fun v ↦ { v with dirs := exactpath :: v.dirs }
            else some ⟨t', [exactpath], true⟩
      else some ⟨t, [], false⟩

/-- The recursion ends. -/
def Terminates (os : Os) (sh : FileTree → Loc → FileTree) (t : FileTree) (start : Path) : Prop :=
  ∃ fuel v, addGitignore os sh fuel t start = some v

/-- An entry of the directory `d` is the directory `e` or leads to it. -/
def SubDir (t : FileTree) (d e : Loc) : Prop :=
  ∃ n ∈ t.listdir d, t.resolveDir [] (d.path.join n) = some e

/-- The directory whose names the first call lists. -/
def StartsAt (os : Os) (t : FileTree) (start : Path) (d : Loc) : Prop :=
  t.isdir os.cwd start = true ∧ os.realpath t (os.expanduser start) = some d

variable {os : Os} {sh : FileTree → Loc → FileTree} {t t' : FileTree} {d e : Loc} {n : Str}
  {subs : List Str} {p : Path} {v : Visit} {fuel : ℕ}

/-! ## The directories below a directory -/

theorem resolveDir_absolute {cwd : Loc} (h : p.absolute = true) :
    t.resolveDir cwd p = t.resolveDir [] p := by
  rw [FileTree.resolveDir, FileTree.resolveDir, FileTree.resolve, FileTree.resolve, if_pos h,
    if_pos h]

theorem SubDir.source_dir (h : SubDir t d e) : t.node? d = some .dir := by
  obtain ⟨n, hn, -⟩ := h
  exact FileTree.node?_parent (FileTree.mem_listdir.mp hn)

theorem SubDir.target_dir (h : SubDir t d e) : t.node? e = some .dir := by
  obtain ⟨n, -, hn⟩ := h
  exact (FileTree.resolveDir_eq_some_iff.mp hn).2

theorem subDir_of_resolveDir (hd : t.node? d = some .dir)
    (h : t.resolveDir [] (d.path.join n) = some e) : SubDir t d e := by
  refine ⟨n, FileTree.mem_listdir.mpr fun hnone ↦ ?_, h⟩
  have hwalk := (FileTree.resolveDir_eq_some_iff.mp h).1
  rw [FileTree.resolve_join hd] at hwalk
  obtain ⟨next, hnext⟩ := t.walk_eq_walkWith maxLinks
  rw [hnext, FileTree.walkWith, hnone] at hwalk
  cases hwalk

theorem subDir_of_addsFiles (h : t'.AddsFiles t) : SubDir t' d e ↔ SubDir t d e := by
  constructor
  · intro hsub
    obtain ⟨n, -, hn⟩ := id hsub
    rw [h.resolveDir] at hn
    exact subDir_of_resolveDir (h.node?_dir.mp hsub.source_dir) hn
  · intro hsub
    obtain ⟨n, -, hn⟩ := id hsub
    rw [← h.resolveDir] at hn
    exact subDir_of_resolveDir (h.node?_dir.mpr hsub.source_dir) hn

theorem finite_reachable (t : FileTree) (d : Loc) : {e | ReflTransGen (SubDir t) d e}.Finite := by
  apply (List.finite_toSet (d :: [] :: t.nodes.keys)).subset
  intro e he
  cases he with
  | refl => exact List.mem_cons_self
  | tail _ hstep =>
      apply List.mem_cons_of_mem
      cases e with
      | nil => exact List.mem_cons_self
      | cons n e =>
          apply List.mem_cons_of_mem
          have hdir := hstep.target_dir
          rw [FileTree.node?_cons] at hdir
          exact AList.mem_keys.mpr (AList.lookup_isSome.mp (by rw [hdir]; rfl))

/-! ## What a call does to the tree -/

theorem addsFiles_withGitfile (os : Os) (d : Loc) (hsh : ∀ t d, (sh t d).AddsFiles t) :
    (withGitfile os sh t d).AddsFiles t := by
  rw [withGitfile]
  split_ifs
  · exact FileTree.AddsFiles.refl t
  · exact hsh t d

/-- A loop that ends has passed over its first name, or ended the call for it. -/
theorem visitSubdirs_cons_cases {visit : FileTree → Path → Option Visit} {sub : Str}
    (h : visitSubdirs os visit d t (sub :: subs) = some v) :
    (¬t.isdir os.cwd (d.path.join sub) ∧ visitSubdirs os visit d t subs = some v) ∨
    (t.isdir os.cwd (d.path.join sub) ∧ ∃ w, visit t (d.path.join sub) = some w ∧
      (w.raised ∧ v = w ∨ ¬w.raised ∧ ∃ x, visitSubdirs os visit d w.tree subs = some x ∧
        v = { x with dirs := w.dirs ++ x.dirs })) := by
  rw [visitSubdirs] at h
  split_ifs at h with hdir
  · right
    obtain ⟨w, hw, hrest⟩ := Option.bind_eq_some_iff.mp h
    refine ⟨hdir, w, hw, ?_⟩
    split_ifs at hrest with hraised
    · exact .inl ⟨hraised, (Option.some.inj hrest).symm⟩
    · obtain ⟨x, hx, hv⟩ := Option.map_eq_some_iff.mp hrest
      exact .inr ⟨hraised, x, hx, hv.symm⟩
  · exact .inl ⟨hdir, h⟩

theorem addsFiles_visitSubdirs {visit : FileTree → Path → Option Visit}
    (hvisit : ∀ t p v, visit t p = some v → v.tree.AddsFiles t)
    (h : visitSubdirs os visit d t subs = some v) : v.tree.AddsFiles t := by
  induction subs generalizing t v with
  | nil =>
      obtain rfl := Option.some.inj h
      exact FileTree.AddsFiles.refl t
  | cons sub subs ih =>
      rcases visitSubdirs_cons_cases h with ⟨-, h⟩ | ⟨-, w, hw, ⟨-, rfl⟩ | ⟨-, x, hx, rfl⟩⟩
      · exact ih h
      · exact hvisit _ _ _ hw
      · exact (ih hx).trans (hvisit _ _ _ hw)

theorem addsFiles_addGitignore (hsh : ∀ t d, (sh t d).AddsFiles t)
    (h : addGitignore os sh fuel t p = some v) : v.tree.AddsFiles t := by
  induction fuel generalizing t p v with
  | zero => cases h
  | succ fuel ih =>
      rw [addGitignore] at h
      split_ifs at h with hdir
      · cases hreal : os.realpath t (os.expanduser p) with
        | none =>
            rw [hreal] at h
            obtain rfl := Option.some.inj h
            exact FileTree.AddsFiles.refl t
        | some d =>
            rw [hreal] at h
            dsimp only at h
            split_ifs at h with hnode
            · obtain ⟨w, hw, rfl⟩ := Option.map_eq_some_iff.mp h
              have hrest := addsFiles_visitSubdirs (fun t p v ↦ ih) hw
              exact hrest.trans (addsFiles_withGitfile os d hsh)
            · obtain rfl := Option.some.inj h
              exact addsFiles_withGitfile os d hsh
      · obtain rfl := Option.some.inj h
        exact FileTree.AddsFiles.refl t

/-! ## Calls below the first one -/

theorem addGitignore_of_resolveDir (hsh : ∀ t d, (sh t d).AddsFiles t)
    (hp : os.realpath t (os.expanduser p) = some d) (hdir : t.isdir os.cwd p = true)
    (hd : t.node? d = some .dir) :
    addGitignore os sh (fuel + 1) t p =
      (visitSubdirs os (addGitignore os sh fuel) d (withGitfile os sh t d)
        ((withGitfile os sh t d).listdir d)).map fun v ↦ { v with dirs := d :: v.dirs } := by
  have hd' := (addsFiles_withGitfile os d hsh).node?_dir.mpr hd
  rw [addGitignore, if_pos hdir, hp]
  exact if_pos hd'

theorem realpath_join (h : t.resolveDir [] (d.path.join n) = some e) :
    os.realpath t (os.expanduser (d.path.join n)) = some e := by
  have habs : os.expanduser (d.path.join n) = d.path.join n := if_pos rfl
  have hresolve := (FileTree.resolveDir_eq_some_iff.mp h).1
  have hcwd : t.resolve os.cwd (d.path.join n) = some e := hresolve
  rw [habs, Os.realpath, hcwd, Option.some_or]

theorem isdir_join {cwd : Loc} :
    t.isdir cwd (d.path.join n) = true ↔ ∃ e, t.resolveDir [] (d.path.join n) = some e := by
  rw [FileTree.isdir, resolveDir_absolute rfl, Option.isSome_iff_exists]

theorem addGitignore_join (hsh : ∀ t d, (sh t d).AddsFiles t)
    (h : t.resolveDir [] (d.path.join n) = some e) :
    addGitignore os sh (fuel + 1) t (d.path.join n) =
      (visitSubdirs os (addGitignore os sh fuel) e (withGitfile os sh t e)
        ((withGitfile os sh t e).listdir e)).map fun v ↦ { v with dirs := e :: v.dirs } :=
  addGitignore_of_resolveDir hsh (realpath_join h) (isdir_join.mpr ⟨e, h⟩)
    (FileTree.resolveDir_eq_some_iff.mp h).2

theorem not_raised_of_visitSubdirs {visit : FileTree → Path → Option Visit}
    (hvisit : ∀ t n v, t.isdir os.cwd (d.path.join n) → visit t (d.path.join n) = some v →
      v.raised = false)
    (h : visitSubdirs os visit d t subs = some v) : v.raised = false := by
  induction subs generalizing t v with
  | nil =>
      obtain rfl := Option.some.inj h
      rfl
  | cons sub subs ih =>
      rcases visitSubdirs_cons_cases h with ⟨-, h⟩ | ⟨hdir, w, hw, ⟨hraised, rfl⟩ | ⟨-, x, hx, rfl⟩⟩
      · exact ih h
      · exact hvisit _ _ _ hdir hw
      · have hfalse := ih hx
        exact hfalse

theorem not_raised_of_join (hsh : ∀ t d, (sh t d).AddsFiles t)
    (hdir : t.isdir os.cwd (d.path.join n))
    (h : addGitignore os sh fuel t (d.path.join n) = some v) : v.raised = false := by
  induction fuel generalizing t d n v with
  | zero => cases h
  | succ fuel ih =>
      obtain ⟨e, he⟩ := isdir_join.mp hdir
      rw [addGitignore_join hsh he] at h
      obtain ⟨w, hw, rfl⟩ := Option.map_eq_some_iff.mp h
      have hfalse := not_raised_of_visitSubdirs (fun t n v ↦ ih) hw
      exact hfalse

/-! ## From the recursion to the graph -/

/-- A loop that ends has ended each of its calls. -/
theorem exists_visit_of_mem {visit : FileTree → Path → Option Visit}
    (hvisit : ∀ t p v, visit t p = some v → v.tree.AddsFiles t)
    (hraised : ∀ t n v, t.isdir os.cwd (d.path.join n) → visit t (d.path.join n) = some v →
      v.raised = false)
    (h : visitSubdirs os visit d t subs = some v) (hn : n ∈ subs)
    (hdir : t.resolveDir [] (d.path.join n) = some e) :
    ∃ t' w, t'.AddsFiles t ∧ visit t' (d.path.join n) = some w := by
  induction subs generalizing t v with
  | nil => cases hn
  | cons sub subs ih =>
      rcases visitSubdirs_cons_cases h with ⟨hsub, h⟩ | ⟨hsub, w, hw, hrest⟩
      · rcases List.mem_cons.mp hn with rfl | hn
        · exact absurd (isdir_join.mpr ⟨e, hdir⟩) hsub
        · exact ih h hn hdir
      · rcases List.mem_cons.mp hn with rfl | hn
        · exact ⟨t, w, FileTree.AddsFiles.refl t, hw⟩
        · rcases hrest with ⟨hraises, -⟩ | ⟨-, x, hx, -⟩
          · rw [hraised _ _ _ hsub hw] at hraises
            cases hraises
          · have hadds := hvisit _ _ _ hw
            rw [← hadds.resolveDir] at hdir
            obtain ⟨t', y, ht', hy⟩ := ih hx hn hdir
            exact ⟨t', y, ht'.trans hadds, hy⟩

theorem subDir_eq_of_addsFiles (h : t'.AddsFiles t) : SubDir t' = SubDir t := by
  funext d e
  exact propext (subDir_of_addsFiles h)

/-- A directory whose loop ends is not above itself. -/
theorem acc_of_visitSubdirs (hsh : ∀ t d, (sh t d).AddsFiles t)
    (h : visitSubdirs os (addGitignore os sh fuel) d t (t.listdir d) = some v) :
    Acc (fun e d ↦ SubDir t d e) d := by
  induction fuel generalizing t d v with
  | zero =>
      constructor
      rintro e ⟨n, hn, he⟩
      obtain ⟨t', w, -, hw⟩ := exists_visit_of_mem (fun _ _ _ hnone ↦ by cases hnone)
        (fun _ _ _ _ hnone ↦ by cases hnone) h hn he
      cases hw
  | succ fuel ih =>
      constructor
      rintro e ⟨n, hn, he⟩
      obtain ⟨t', w, hadds, hw⟩ := exists_visit_of_mem
        (fun _ _ _ ↦ addsFiles_addGitignore hsh) (fun _ _ _ ↦ not_raised_of_join hsh) h hn he
      rw [← hadds.resolveDir] at he
      rw [addGitignore_join hsh he] at hw
      obtain ⟨x, hx, -⟩ := Option.map_eq_some_iff.mp hw
      have hbelow := ih hx
      rwa [subDir_eq_of_addsFiles (addsFiles_withGitfile os _ hsh), subDir_eq_of_addsFiles hadds]
        at hbelow

/-! ## From the graph to the recursion -/

theorem visitSubdirs_mono {visit visit' : FileTree → Path → Option Visit}
    (hvisit : ∀ t p v, visit t p = some v → visit' t p = some v)
    (h : visitSubdirs os visit d t subs = some v) : visitSubdirs os visit' d t subs = some v := by
  induction subs generalizing t v with
  | nil => exact h
  | cons sub subs ih =>
      rw [visitSubdirs] at h ⊢
      split_ifs at h ⊢ with hdir
      · obtain ⟨w, hw, hrest⟩ := Option.bind_eq_some_iff.mp h
        rw [hvisit _ _ _ hw, Option.bind_some]
        split_ifs at hrest ⊢ with hraised
        · exact hrest
        · obtain ⟨x, hx, rfl⟩ := Option.map_eq_some_iff.mp hrest
          rw [ih hx, Option.map_some]
      · exact ih h

theorem addGitignore_succ (h : addGitignore os sh fuel t p = some v) :
    addGitignore os sh (fuel + 1) t p = some v := by
  induction fuel generalizing t p v with
  | zero => cases h
  | succ fuel ih =>
      rw [addGitignore] at h ⊢
      split_ifs at h ⊢ with hdir
      · cases hreal : os.realpath t (os.expanduser p) with
        | none =>
            rw [hreal] at h
            exact h
        | some d =>
            rw [hreal] at h
            dsimp only at h ⊢
            split_ifs at h ⊢ with hnode
            · obtain ⟨w, hw, rfl⟩ := Option.map_eq_some_iff.mp h
              rw [visitSubdirs_mono (fun t p v ↦ ih) hw, Option.map_some]
            · exact h
      · exact h

theorem addGitignore_mono {fuel' : ℕ} (hle : fuel ≤ fuel')
    (h : addGitignore os sh fuel t p = some v) : addGitignore os sh fuel' t p = some v := by
  induction hle with
  | refl => exact h
  | step _ ih => exact addGitignore_succ ih

theorem exists_visitSubdirs (hsh : ∀ t d, (sh t d).AddsFiles t)
    (hsubs : ∀ t' n, t'.AddsFiles t → n ∈ subs → t'.isdir os.cwd (d.path.join n) →
      Terminates os sh t' (d.path.join n)) :
    ∃ fuel v, visitSubdirs os (addGitignore os sh fuel) d t subs = some v := by
  induction subs generalizing t with
  | nil => exact ⟨0, _, rfl⟩
  | cons sub subs ih =>
      have hrest (t' : FileTree) (hadds : t'.AddsFiles t) :=
        ih fun t'' n hadds' hn ↦ hsubs t'' n (hadds'.trans hadds) (List.mem_cons_of_mem _ hn)
      by_cases hdir : t.isdir os.cwd (d.path.join sub)
      · obtain ⟨fuel, v, hv⟩ := hsubs t sub (.refl t) List.mem_cons_self hdir
        obtain ⟨fuel', w, hw⟩ := hrest v.tree (addsFiles_addGitignore hsh hv)
        refine ⟨max fuel fuel', ?_⟩
        have hleft := addGitignore_mono (le_max_left fuel fuel') hv
        have hright := visitSubdirs_mono
          (fun t p v ↦ addGitignore_mono (le_max_right fuel fuel')) hw
        rw [visitSubdirs, if_pos hdir, hleft, Option.bind_some]
        split_ifs
        · exact ⟨_, rfl⟩
        · rw [hright]
          exact ⟨_, rfl⟩
      · obtain ⟨fuel, v, hv⟩ := hrest t (.refl t)
        refine ⟨fuel, v, ?_⟩
        rw [visitSubdirs, if_neg hdir, hv]

theorem visitSubdirs_of_acc (os : Os) (hsh : ∀ t d, (sh t d).AddsFiles t)
    (h : Acc (fun e d ↦ SubDir t d e) d) (hadds : t'.AddsFiles t) (hd : t.node? d = some .dir) :
    ∃ fuel v, visitSubdirs os (addGitignore os sh fuel) d t' (t'.listdir d) = some v := by
  induction h generalizing t' with
  | intro d _ ih =>
      apply exists_visitSubdirs hsh
      intro t'' n hadds' _ hdir
      obtain ⟨e, he⟩ := isdir_join.mp hdir
      have hadds'' := hadds'.trans hadds
      have hsub : SubDir t d e := by
        rw [hadds''.resolveDir] at he
        exact subDir_of_resolveDir hd he
      have hbefore := (addsFiles_withGitfile os e hsh).trans hadds''
      obtain ⟨fuel, v, hv⟩ := ih e hsub hbefore hsub.target_dir
      refine ⟨fuel + 1, { v with dirs := e :: v.dirs }, ?_⟩
      rw [addGitignore_join hsh he, hv, Option.map_some]

theorem terminates_iff_acc (hsh : ∀ t d, (sh t d).AddsFiles t) {start : Path} :
    Terminates os sh t start ↔ ∀ d, StartsAt os t start d → Acc (fun e d ↦ SubDir t d e) d := by
  constructor
  · rintro ⟨fuel, v, hv⟩ d ⟨hdir, hd⟩
    by_cases hnode : t.node? d = some .dir
    · cases fuel with
      | zero => cases hv
      | succ fuel =>
          rw [addGitignore_of_resolveDir hsh hd hdir hnode] at hv
          obtain ⟨w, hw, -⟩ := Option.map_eq_some_iff.mp hv
          have hacc := acc_of_visitSubdirs hsh hw
          rwa [subDir_eq_of_addsFiles (addsFiles_withGitfile os _ hsh)] at hacc
    · constructor
      intro e he
      exact absurd he.source_dir hnode
  · intro hacc
    by_cases hdir : t.isdir os.cwd start
    · cases hreal : os.realpath t (os.expanduser start) with
      | none =>
          refine ⟨1, ⟨t, [], true⟩, ?_⟩
          rw [addGitignore, if_pos hdir, hreal]
      | some d =>
          by_cases hnode : t.node? d = some .dir
          · obtain ⟨fuel, v, hv⟩ := visitSubdirs_of_acc os hsh (hacc d ⟨hdir, hreal⟩)
              (addsFiles_withGitfile os d hsh) hnode
            refine ⟨fuel + 1, { v with dirs := d :: v.dirs }, ?_⟩
            rw [addGitignore_of_resolveDir hsh hreal hdir hnode, hv, Option.map_some]
          · have hnode' : (withGitfile os sh t d).node? d ≠ some .dir := by
              rwa [Ne, (addsFiles_withGitfile os d hsh).node?_dir]
            refine ⟨1, ⟨withGitfile os sh t d, [d], true⟩, ?_⟩
            rw [addGitignore, if_pos hdir, hreal]
            exact if_neg hnode'
    · refine ⟨1, ⟨t, [], false⟩, ?_⟩
      rw [addGitignore, if_neg hdir]

/-- The recursion ends exactly when no directory that it reaches leads back to
itself. -/
theorem terminates_iff_noCycle (os : Os) (sh : FileTree → Loc → FileTree) (t : FileTree)
    (start : Path) (hsh : ∀ t d, (sh t d).AddsFiles t) :
    Terminates os sh t start ↔ ∀ d, StartsAt os t start d → NoCycle (SubDir t) d := by
  rw [terminates_iff_acc hsh]
  have hiff (d : Loc) := acc_iff_noCycle (finite_reachable t d)
  exact forall₂_congr fun d _ ↦ hiff d

/-- The shell where every name is plain. -/
def echoSwp (t : FileTree) (d : Loc) : FileTree := t.add d gitfile .file

theorem addsFiles_echoSwp (t : FileTree) (d : Loc) : (echoSwp t d).AddsFiles t :=
  t.addsFiles_add d gitfile

def noteOs : Os := { cwd := [], home := fun _ ↦ none, unresolved := fun _ _ ↦ none }

def noteTree : FileTree :=
  ((FileTree.empty.add [] "note".toList .dir).add ["note".toList] "projects".toList .dir).add
    [] "work".toList .dir

def notePath : Path := Loc.path ["note".toList]

/-- A link from the projects of the notes to a directory elsewhere. -/
def linkedTree : FileTree :=
  noteTree.add ["projects".toList, "note".toList] "work".toList (.link (Loc.path ["work".toList]))

theorem terminates_on_linked : Terminates noteOs echoSwp linkedTree notePath ∧
    NoCycle (SubDir linkedTree) ["note".toList] := by
  have hends : Terminates noteOs echoSwp linkedTree notePath :=
    ⟨4, Option.isSome_iff_exists.mp (by decide +kernel)⟩
  have hstart : StartsAt noteOs linkedTree notePath ["note".toList] := by
    constructor <;> decide +kernel
  have hiff := terminates_iff_noCycle noteOs echoSwp linkedTree notePath addsFiles_echoSwp
  exact ⟨hends, hiff.mp hends _ hstart⟩

/-- A link from the projects of the notes to the notes. -/
def cyclicTree : FileTree :=
  noteTree.add ["projects".toList, "note".toList] "all".toList (.link (Loc.path ["note".toList]))

theorem not_terminates_on_cyclic : ¬Terminates noteOs echoSwp cyclicTree notePath := by
  have hstart : StartsAt noteOs cyclicTree notePath ["note".toList] := by
    constructor <;> decide +kernel
  have hdown : SubDir cyclicTree ["note".toList] ["projects".toList, "note".toList] :=
    ⟨"projects".toList, by decide +kernel, by decide +kernel⟩
  have hback : SubDir cyclicTree ["projects".toList, "note".toList] ["note".toList] :=
    ⟨"all".toList, by decide +kernel, by decide +kernel⟩
  intro hends
  have hacc := (terminates_iff_acc addsFiles_echoSwp).mp hends
  exact not_transGen_self_of_acc (hacc _ hstart) (.tail (.single hdown) hback)

end EsNotebook.Dirc
