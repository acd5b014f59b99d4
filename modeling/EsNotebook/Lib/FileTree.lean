import EsNotebook.Lib.PyText
import Mathlib.Data.List.AList

/-!
# Directories, files and symbolic links

A file tree names its nodes by their place below the root.  A path is looked
up component by component; a link is replaced by its target, which is looked
up from the directory that holds the link, and only so many links are followed
for one path.
-/

namespace EsNotebook

open Py

/-- A component of a path: `.`, `..` or a name. -/
inductive Comp where
  | dot
  | up
  | name (n : Str)
  deriving DecidableEq, Repr

structure Path where
  absolute : Bool
  comps : List Comp
  deriving DecidableEq, Repr

/-- A place below the root, its own name first. -/
abbrev Loc := List Str

inductive Node where
  | dir
  | file
  | link (target : Path)
  deriving DecidableEq, Repr

/-- The nodes below the root, all of them in directories. -/
structure FileTree where
  nodes : AList fun _ : Loc ↦ Node
  parents : ∀ n d, n :: d ∈ nodes → d = [] ∨ nodes.lookup d = some .dir

/-- The number of links the system follows for one path. -/
def maxLinks : ℕ := 40

/-- The path of a place. -/
def Loc.path (l : Loc) : Path := { absolute := true, comps := l.reverse.map .name }

/-- `os.path.join(p, n)` for a name `n` -/
def Path.join (p : Path) (n : Str) : Path := { p with comps := p.comps ++ [.name n] }

namespace FileTree

def node? (t : FileTree) : Loc → Option Node
  | [] => some .dir
  | l => t.nodes.lookup l

/-- The names in a directory. -/
def listdir (t : FileTree) (d : Loc) : List Str :=
  t.nodes.keys.filterMap fun l ↦
    match l with
    | [] => none
    | n :: d' => if d' = d then some n else none

/-- The look-up from the directory `d`, up to the first link; `next` goes on
behind it. -/
def walkWith (t : FileTree) (next : Loc → List Comp → Option Loc) : Loc → List Comp → Option Loc
  | d, [] => some d
  | d, .dot :: cs => walkWith t next d cs
  | d, .up :: cs => walkWith t next d.tail cs
  | d, .name n :: cs =>
      match t.node? (n :: d) with
      | none => none
      | some .file => if cs = [] then some (n :: d) else none
      | some .dir => walkWith t next (n :: d) cs
      | some (.link target) => next (if target.absolute then [] else d) (target.comps ++ cs)

/-- The look-up with at most `b` links. -/
def walk (t : FileTree) : ℕ → Loc → List Comp → Option Loc
  | 0 => t.walkWith fun _ _ ↦ none
  | b + 1 => t.walkWith (t.walk b)

/-- The place that a path leads to from the directory `cwd`. -/
def resolve (t : FileTree) (cwd : Loc) (p : Path) : Option Loc :=
  t.walk maxLinks (if p.absolute then [] else cwd) p.comps

/-- The directory that a path leads to. -/
def resolveDir (t : FileTree) (cwd : Loc) (p : Path) : Option Loc :=
  (t.resolve cwd p).filter fun l ↦ t.node? l = some .dir

/-- `os.path.isdir` -/
def isdir (t : FileTree) (cwd : Loc) (p : Path) : Bool := (t.resolveDir cwd p).isSome

/-- `os.path.isfile` -/
def isfile (t : FileTree) (cwd : Loc) (p : Path) : Bool :=
  (t.resolve cwd p).any fun l ↦ t.node? l = some .file

variable {t t' : FileTree} {d l cwd : Loc} {n : Str} {cs : List Comp} {b : ℕ}

theorem node?_cons : t.node? (n :: d) = t.nodes.lookup (n :: d) := rfl

theorem node?_parent (h : t.node? (n :: d) ≠ none) : t.node? d = some .dir := by
  have hmem : n :: d ∈ t.nodes := by
    rw [← AList.lookup_isSome, Option.isSome_iff_ne_none]
    exact h
  rcases t.parents n d hmem with rfl | hdir
  · rfl
  · cases d with
    | nil => rfl
    | cons m d => exact hdir

theorem mem_listdir : n ∈ t.listdir d ↔ t.node? (n :: d) ≠ none := by
  rw [node?_cons, ← Option.isSome_iff_ne_none, AList.lookup_isSome, AList.mem_keys, listdir,
    List.mem_filterMap]
  constructor
  · rintro ⟨l, hl, hn⟩
    cases l with
    | nil => cases hn
    | cons m d' =>
        dsimp only at hn
        split_ifs at hn with hd
        obtain rfl := Option.some.inj hn
        rwa [← hd]
  · intro h
    exact ⟨n :: d, h, if_pos rfl⟩

theorem resolveDir_eq_some_iff {p : Path} :
    t.resolveDir cwd p = some l ↔ t.resolve cwd p = some l ∧ t.node? l = some .dir := by
  rw [resolveDir, Option.filter_eq_some_iff, decide_eq_true_eq]

theorem walkWith_names {next : Loc → List Comp → Option Loc} {ns : List Str}
    (h : t.node? (ns.reverse ++ d) = some .dir) :
    t.walkWith next d (ns.map .name ++ cs) = t.walkWith next (ns.reverse ++ d) cs := by
  induction ns generalizing d with
  | nil => rfl
  | cons n ns ih =>
      rw [List.reverse_cons, List.append_assoc, List.singleton_append] at h ⊢
      have hdir (ns : List Str) (h : t.node? (ns ++ n :: d) = some .dir) :
          t.node? (n :: d) = some .dir := by
        induction ns with
        | nil => exact h
        | cons m ns ih =>
            apply ih
            apply node?_parent (n := m)
            rw [List.cons_append] at h
            rw [h]
            exact Option.some_ne_none _
      rw [List.map_cons, List.cons_append, walkWith, hdir _ h]
      exact ih h

theorem walk_eq_walkWith (t : FileTree) (b : ℕ) : ∃ next, t.walk b = t.walkWith next := by
  cases b with
  | zero => exact ⟨_, rfl⟩
  | succ b => exact ⟨_, rfl⟩

theorem walk_path (h : t.node? d = some .dir) :
    t.walk b [] (d.reverse.map .name ++ cs) = t.walk b d cs := by
  obtain ⟨next, hnext⟩ := t.walk_eq_walkWith b
  have hroot : t.node? (d.reverse.reverse ++ []) = some .dir := by
    rw [List.reverse_reverse, List.append_nil]
    exact h
  rw [hnext, walkWith_names hroot, List.reverse_reverse, List.append_nil]

theorem resolve_join (h : t.node? d = some .dir) :
    t.resolve cwd ((Loc.path d).join n) = t.walk maxLinks d [.name n] := walk_path h

/-! ## Adding nodes -/

/-- `t'` has the nodes of `t`, and others. -/
def Extends (t' t : FileTree) : Prop := ∀ l k, t.node? l = some k → t'.node? l = some k

theorem Extends.refl (t : FileTree) : t.Extends t := fun _ _ h ↦ h

theorem Extends.trans {t'' : FileTree} (h : t''.Extends t') (h' : t'.Extends t) :
    t''.Extends t := fun l k hk ↦ h l k (h' l k hk)

theorem Extends.walkWith {next next' : Loc → List Comp → Option Loc} (h : t'.Extends t)
    (hnext : ∀ d cs l, next d cs = some l → next' d cs = some l)
    (hwalk : t.walkWith next d cs = some l) : t'.walkWith next' d cs = some l := by
  induction cs generalizing d with
  | nil => exact hwalk
  | cons c cs ih =>
      cases c with
      | dot => exact ih hwalk
      | up => exact ih hwalk
      | name n =>
          rw [FileTree.walkWith] at hwalk
          cases hnode : t.node? (n :: d) with
          | none => simp [hnode] at hwalk
          | some k =>
              rw [hnode] at hwalk
              rw [FileTree.walkWith, h _ _ hnode]
              cases k with
              | dir => exact ih hwalk
              | file => exact hwalk
              | link target => exact hnext _ _ _ hwalk

/-- A path that leads somewhere keeps leading there. -/
theorem Extends.walk (h : t'.Extends t) (hwalk : t.walk b d cs = some l) :
    t'.walk b d cs = some l := by
  induction b generalizing d cs l with
  | zero => exact h.walkWith (fun _ _ _ hnone ↦ by cases hnone) hwalk
  | succ b ih => exact h.walkWith (fun _ _ _ hnext ↦ ih hnext) hwalk

theorem Extends.resolve {p : Path} (h : t'.Extends t) (hp : t.resolve cwd p = some l) :
    t'.resolve cwd p = some l := h.walk hp

/-- `t'` has the nodes of `t` and new files. -/
def AddsFiles (t' t : FileTree) : Prop :=
  ∀ l, t'.node? l = t.node? l ∨ t.node? l = none ∧ t'.node? l = some .file

theorem AddsFiles.refl (t : FileTree) : t.AddsFiles t := fun _ ↦ .inl rfl

theorem AddsFiles.extends (h : t'.AddsFiles t) : t'.Extends t := by
  intro l k hk
  rcases h l with heq | ⟨hnone, -⟩
  · rw [heq, hk]
  · rw [hnone] at hk
    cases hk

theorem AddsFiles.trans {t'' : FileTree} (h : t''.AddsFiles t') (h' : t'.AddsFiles t) :
    t''.AddsFiles t := by
  intro l
  rcases h' l with heq | ⟨hnone, hfile⟩
  · rw [← heq]
    exact h l
  · exact .inr ⟨hnone, h.extends _ _ hfile⟩

theorem AddsFiles.node?_dir (h : t'.AddsFiles t) :
    t'.node? l = some .dir ↔ t.node? l = some .dir := by
  constructor
  · intro hdir
    rcases h l with heq | ⟨-, hfile⟩
    · rwa [← heq]
    · rw [hfile] at hdir
      cases hdir
  · exact h.extends _ _

theorem AddsFiles.walkWith {next next' : Loc → List Comp → Option Loc} (h : t'.AddsFiles t)
    (hdir : t.node? l = some .dir) (hnext : ∀ d cs, next' d cs = some l → next d cs = some l)
    (hwalk : t'.walkWith next' d cs = some l) : t.walkWith next d cs = some l := by
  induction cs generalizing d with
  | nil => exact hwalk
  | cons c cs ih =>
      cases c with
      | dot => exact ih hwalk
      | up => exact ih hwalk
      | name n =>
          rw [FileTree.walkWith] at hwalk ⊢
          rcases h (n :: d) with heq | ⟨hnone, hfile⟩
          · rw [heq] at hwalk
            cases hnode : t.node? (n :: d) with
            | none => simp [hnode] at hwalk
            | some k =>
                rw [hnode] at hwalk
                cases k with
                | dir => exact ih hwalk
                | file => exact hwalk
                | link target => exact hnext _ _ hwalk
          · -- a new file is no directory, and nothing is below it
            rw [hfile] at hwalk
            dsimp only at hwalk
            split_ifs at hwalk
            obtain rfl := Option.some.inj hwalk
            rw [hnone] at hdir
            cases hdir

/-- New files do not change which directory a path leads to. -/
theorem AddsFiles.walk_dir (h : t'.AddsFiles t) (hdir : t.node? l = some .dir) :
    t'.walk b d cs = some l ↔ t.walk b d cs = some l := by
  constructor
  · intro hwalk
    induction b generalizing d cs with
    | zero => exact h.walkWith hdir (fun _ _ hnone ↦ by cases hnone) hwalk
    | succ b ih => exact h.walkWith hdir (fun _ _ hnext ↦ ih hnext) hwalk
  · exact h.extends.walk

theorem AddsFiles.resolveDir {p : Path} (h : t'.AddsFiles t) :
    t'.resolveDir cwd p = t.resolveDir cwd p := by
  apply Option.ext
  intro l
  rw [resolveDir_eq_some_iff, resolveDir_eq_some_iff, h.node?_dir]
  exact and_congr_left fun hdir ↦ h.walk_dir hdir

/-! ## One new node -/

/-- A new node in the directory `d`, unless it has one of this name. -/
def add (t : FileTree) (d : Loc) (n : Str) (k : Node) : FileTree :=
  if h : t.node? d = some .dir ∧ t.node? (n :: d) = none then
    { nodes := t.nodes.insert (n :: d) k
      parents := by
        intro m e hmem
        rw [AList.mem_insert] at hmem
        have hdir : e = [] ∨ t.nodes.lookup e = some .dir := by
          rcases hmem with heq | hmem
          · obtain ⟨rfl, rfl⟩ := List.cons.inj heq
            cases e with
            | nil => exact .inl rfl
            | cons m e => exact .inr h.1
          · exact t.parents m e hmem
        refine hdir.imp_right fun hlookup ↦ ?_
        rw [AList.lookup_insert_ne, hlookup]
        rintro rfl
        rw [node?_cons, hlookup] at h
        cases h.2 }
  else t

def empty : FileTree where
  nodes := ∅
  parents := fun _ _ h ↦ absurd h (AList.notMem_empty _)

theorem node?_add {k : Node} : (t.add d n k).node? l =
    if (t.node? d = some .dir ∧ t.node? (n :: d) = none) ∧ l = n :: d then some k
    else t.node? l := by
  rw [add]
  by_cases h : t.node? d = some .dir ∧ t.node? (n :: d) = none
  · rw [dif_pos h]
    by_cases hl : l = n :: d
    · rw [if_pos ⟨h, hl⟩, hl]
      exact AList.lookup_insert _
    · rw [if_neg fun hand ↦ hl hand.2]
      cases l with
      | nil => rfl
      | cons m l => exact AList.lookup_insert_ne hl
  · rw [dif_neg h, if_neg fun hand ↦ h hand.1]

theorem extends_add (t : FileTree) (d : Loc) (n : Str) (k : Node) : (t.add d n k).Extends t := by
  intro l k' hk
  rw [node?_add, if_neg, hk]
  rintro ⟨⟨-, hnone⟩, rfl⟩
  rw [hk] at hnone
  cases hnone

theorem addsFiles_add (t : FileTree) (d : Loc) (n : Str) : (t.add d n .file).AddsFiles t := by
  intro l
  rw [node?_add]
  split_ifs with h
  · right
    rw [h.2]
    exact ⟨h.1.2, rfl⟩
  · exact .inl rfl

end FileTree

end EsNotebook
