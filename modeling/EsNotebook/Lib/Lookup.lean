import EsNotebook.Lib.FileTree

/-!
# The look-up of a path as a relation

Where a path leads and how many links it goes through.  The look-up of a path
can be cut into the look-ups of its parts, and a link that has just been made
plays no part in the look-up of its own target.
-/

namespace EsNotebook.FileTree

/-- From the directory `d` the components lead to a place through so many links. -/
inductive Follows (t : FileTree) : ℕ → Loc → List Comp → Loc → Prop where
  | nil {d : Loc} : t.Follows 0 d [] d
  | dot {k : ℕ} {d l : Loc} {cs : List Comp} : t.Follows k d cs l → t.Follows k d (.dot :: cs) l
  | up {k : ℕ} {d l : Loc} {cs : List Comp} :
      t.Follows k d.tail cs l → t.Follows k d (.up :: cs) l
  | dir {k : ℕ} {d l : Loc} {n : Py.Str} {cs : List Comp} : t.node? (n :: d) = some .dir →
      t.Follows k (n :: d) cs l → t.Follows k d (.name n :: cs) l
  | file {d : Loc} {n : Py.Str} : t.node? (n :: d) = some .file →
      t.Follows 0 d [.name n] (n :: d)
  | link {k : ℕ} {d l : Loc} {n : Py.Str} {target : Path} {cs : List Comp} :
      t.node? (n :: d) = some (.link target) →
      t.Follows k (if target.absolute then [] else d) (target.comps ++ cs) l →
      t.Follows (k + 1) d (.name n :: cs) l

variable {t t' : FileTree} {b k k' : ℕ} {d e l l' cwd : Loc} {n : Py.Str} {cs cs' : List Comp}
  {target : Path}

theorem Follows.walk (h : t.Follows k d cs l) (hle : k ≤ b) : t.walk b d cs = some l := by
  obtain ⟨next, hnext⟩ := t.walk_eq_walkWith b
  induction h generalizing b next with
  | nil => rw [hnext, walkWith]
  | dot _ ih =>
      rw [hnext, walkWith, ← hnext]
      exact ih hle next hnext
  | up _ ih =>
      rw [hnext, walkWith, ← hnext]
      exact ih hle next hnext
  | dir hnode _ ih =>
      rw [hnext, walkWith, hnode, ← hnext]
      exact ih hle next hnext
  | file hnode => rw [hnext, walkWith, hnode, if_pos rfl]
  | link hnode _ ih =>
      obtain ⟨b, rfl⟩ : ∃ b', b = b' + 1 := ⟨b - 1, by omega⟩
      obtain ⟨next', hnext'⟩ := t.walk_eq_walkWith b
      rw [FileTree.walk, walkWith, hnode]
      exact ih (by omega) next' hnext'

theorem exists_follows_of_walkWith {next : Loc → List Comp → Option Loc}
    (hnext : ∀ d cs l, next d cs = some l → ∃ k < b, t.Follows k d cs l)
    (h : t.walkWith next d cs = some l) : ∃ k ≤ b, t.Follows k d cs l := by
  induction cs generalizing d with
  | nil =>
      obtain rfl := Option.some.inj h
      exact ⟨0, Nat.zero_le b, .nil⟩
  | cons c cs ih =>
      cases c with
      | dot =>
          obtain ⟨k, hk, hfollows⟩ := ih h
          exact ⟨k, hk, .dot hfollows⟩
      | up =>
          obtain ⟨k, hk, hfollows⟩ := ih h
          exact ⟨k, hk, .up hfollows⟩
      | name n =>
          rw [walkWith] at h
          cases hnode : t.node? (n :: d) with
          | none => simp [hnode] at h
          | some node =>
              rw [hnode] at h
              cases node with
              | dir =>
                  obtain ⟨k, hk, hfollows⟩ := ih h
                  exact ⟨k, hk, .dir hnode hfollows⟩
              | file =>
                  dsimp only at h
                  split_ifs at h with hnil
                  obtain rfl := Option.some.inj h
                  rw [hnil]
                  exact ⟨0, Nat.zero_le b, .file hnode⟩
              | link target =>
                  obtain ⟨k, hk, hfollows⟩ := hnext _ _ _ h
                  exact ⟨k + 1, hk, .link hnode hfollows⟩

/-- The look-up with at most `b` links finds what the relation says. -/
theorem walk_eq_some_iff : t.walk b d cs = some l ↔ ∃ k ≤ b, t.Follows k d cs l := by
  constructor
  · intro h
    induction b generalizing d cs l with
    | zero => exact exists_follows_of_walkWith (fun _ _ _ hnone ↦ by cases hnone) h
    | succ b ih =>
        apply exists_follows_of_walkWith (fun d cs l hrest ↦ ?_) h
        obtain ⟨k, hk, hfollows⟩ := ih hrest
        exact ⟨k, Nat.lt_succ_of_le hk, hfollows⟩
  · rintro ⟨k, hk, hfollows⟩
    exact hfollows.walk hk

theorem follows_dir_iff (hnode : t.node? (n :: d) = some .dir) :
    t.Follows k d (.name n :: cs) l ↔ t.Follows k (n :: d) cs l := by
  constructor
  · intro h
    cases h with
    | dir _ h => exact h
    | file hfile => rw [hnode] at hfile; cases hfile
    | link hlink _ => rw [hnode] at hlink; cases hlink
  · exact .dir hnode

theorem follows_file_iff (hnode : t.node? (n :: d) = some .file) :
    t.Follows k d (.name n :: cs) l ↔ k = 0 ∧ cs = [] ∧ l = n :: d := by
  constructor
  · intro h
    cases h with
    | dir hdir _ => rw [hnode] at hdir; cases hdir
    | file _ => exact ⟨rfl, rfl, rfl⟩
    | link hlink _ => rw [hnode] at hlink; cases hlink
  · rintro ⟨rfl, rfl, rfl⟩
    exact .file hnode

theorem follows_link_iff (hnode : t.node? (n :: d) = some (.link target)) :
    t.Follows k d (.name n :: cs) l ↔ ∃ k', k = k' + 1 ∧
      t.Follows k' (if target.absolute then [] else d) (target.comps ++ cs) l := by
  constructor
  · intro h
    cases h with
    | dir hdir _ => rw [hnode] at hdir; cases hdir
    | file hfile => rw [hnode] at hfile; cases hfile
    | link hlink h =>
        rw [hnode] at hlink
        obtain rfl := Node.link.inj (Option.some.inj hlink)
        exact ⟨_, rfl, h⟩
  · rintro ⟨k', rfl, h⟩
    exact .link hnode h

theorem Follows.unique (h : t.Follows k d cs l) (h' : t.Follows k' d cs l') :
    k = k' ∧ l = l' := by
  induction h generalizing k' with
  | nil =>
      cases h'
      exact ⟨rfl, rfl⟩
  | dot _ ih =>
      cases h' with
      | dot h' => exact ih h'
  | up _ ih =>
      cases h' with
      | up h' => exact ih h'
  | dir hnode _ ih => exact ih ((follows_dir_iff hnode).mp h')
  | file hnode =>
      obtain ⟨rfl, -, rfl⟩ := (follows_file_iff hnode).mp h'
      exact ⟨rfl, rfl⟩
  | link hnode _ ih =>
      obtain ⟨k', rfl, hrest⟩ := (follows_link_iff hnode).mp h'
      obtain ⟨rfl, rfl⟩ := ih hrest
      exact ⟨rfl, rfl⟩

theorem Follows.extends (h : t'.Extends t) (hfollows : t.Follows k d cs l) :
    t'.Follows k d cs l := by
  induction hfollows with
  | nil => exact .nil
  | dot _ ih => exact .dot ih
  | up _ ih => exact .up ih
  | dir hnode _ ih => exact .dir (h _ _ hnode) ih
  | file hnode => exact .file (h _ _ hnode)
  | link hnode _ ih => exact .link (h _ _ hnode) ih

/-! ## A path in two parts -/

theorem Follows.append (h : t.Follows k d cs e) (he : t.node? e = some .dir)
    (h' : t.Follows k' e cs' l) : t.Follows (k + k') d (cs ++ cs') l := by
  induction h with
  | nil =>
      rw [Nat.zero_add]
      exact h'
  | dot _ ih => exact .dot (ih he h')
  | up _ ih => exact .up (ih he h')
  | dir hnode _ ih => exact .dir hnode (ih he h')
  | file hnode => rw [hnode] at he; cases he
  | @link k d l n target cs hnode _ ih =>
      have hrest := ih he h'
      rw [List.append_assoc] at hrest
      rw [Nat.add_right_comm]
      exact .link hnode hrest

theorem Follows.of_append (h : t.Follows k d (cs ++ cs') l) :
    ∃ k₁ e, t.Follows k₁ d cs e := by
  generalize hall : cs ++ cs' = all at h
  induction h generalizing cs with
  | nil =>
      obtain ⟨rfl, -⟩ := List.append_eq_nil_iff.mp hall
      exact ⟨0, _, .nil⟩
  | @dot k d l all _ ih =>
      cases cs with
      | nil => exact ⟨0, d, .nil⟩
      | cons c cs =>
          obtain ⟨rfl, hrest⟩ := List.cons.inj hall
          obtain ⟨k₁, e, he⟩ := ih hrest
          exact ⟨k₁, e, .dot he⟩
  | @up k d l all _ ih =>
      cases cs with
      | nil => exact ⟨0, d, .nil⟩
      | cons c cs =>
          obtain ⟨rfl, hrest⟩ := List.cons.inj hall
          obtain ⟨k₁, e, he⟩ := ih hrest
          exact ⟨k₁, e, .up he⟩
  | @dir k d l n all hnode _ ih =>
      cases cs with
      | nil => exact ⟨0, d, .nil⟩
      | cons c cs =>
          obtain ⟨rfl, hrest⟩ := List.cons.inj hall
          obtain ⟨k₁, e, he⟩ := ih hrest
          exact ⟨k₁, e, .dir hnode he⟩
  | @file d n hnode =>
      cases cs with
      | nil => exact ⟨0, d, .nil⟩
      | cons c cs =>
          obtain ⟨rfl, hrest⟩ := List.cons.inj hall
          obtain ⟨rfl, -⟩ := List.append_eq_nil_iff.mp hrest
          exact ⟨0, _, .file hnode⟩
  | @link k d l n target all hnode _ ih =>
      cases cs with
      | nil => exact ⟨0, d, .nil⟩
      | cons c cs =>
          obtain ⟨rfl, hrest⟩ := List.cons.inj hall
          have happ : target.comps ++ cs ++ cs' = target.comps ++ all := by
            rw [List.append_assoc]
            exact congrArg _ hrest
          obtain ⟨k₁, e, he⟩ := ih happ
          exact ⟨k₁ + 1, e, .link hnode he⟩

theorem follows_append_iff (h : t.Follows k d cs e) (he : t.node? e = some .dir) :
    t.Follows k' d (cs ++ cs') l ↔ ∃ k₁, k' = k + k₁ ∧ t.Follows k₁ e cs' l := by
  constructor
  · intro hall
    induction h generalizing k' with
    | nil => exact ⟨k', by rw [Nat.zero_add], hall⟩
    | dot _ ih =>
        cases hall with
        | dot hall => exact ih he hall
    | up _ ih =>
        cases hall with
        | up hall => exact ih he hall
    | dir hnode _ ih => exact ih he ((follows_dir_iff hnode).mp hall)
    | file hnode =>
        rw [hnode] at he
        cases he
    | @link k d l n target cs hnode _ ih =>
        have hname : t.Follows k' d (.name n :: (cs ++ cs')) _ := hall
        obtain ⟨k₁, rfl, hrest⟩ := (follows_link_iff hnode).mp hname
        rw [← List.append_assoc] at hrest
        obtain ⟨k₂, rfl, hbehind⟩ := ih he hrest
        exact ⟨k₂, by omega, hbehind⟩
  · rintro ⟨k₁, rfl, hrest⟩
    exact h.append he hrest

/-! ## A new link -/

/-- A look-up behind a new link either needs nothing of it or goes through it. -/
theorem Follows.add_link_cases (hfollows : (t.add e n (.link target)).Follows k d cs l) :
    t.Follows k d cs l ∨ ∃ k' < k, ∃ rest, (t.add e n (.link target)).Follows k'
      (if target.absolute then [] else e) (target.comps ++ rest) l := by
  have hnode {m : Py.Str} {d : Loc} {node : Node}
      (h : (t.add e n (.link target)).node? (m :: d) = some node) :
      t.node? (m :: d) = some node ∨ m :: d = n :: e ∧ node = .link target := by
    rw [node?_add] at h
    split_ifs at h with hnew
    · exact .inr ⟨hnew.2, (Option.some.inj h).symm⟩
    · exact .inl h
  induction hfollows with
  | nil => exact .inl .nil
  | dot _ ih => exact ih.imp_left .dot
  | up _ ih => exact ih.imp_left .up
  | dir hdir _ ih =>
      rcases hnode hdir with hdir | ⟨-, hlink⟩
      · exact ih.imp_left (.dir hdir)
      · cases hlink
  | file hfile =>
      rcases hnode hfile with hfile | ⟨-, hlink⟩
      · exact .inl (.file hfile)
      · cases hlink
  | @link k d l m target' cs hlink hrest ih =>
      rcases hnode hlink with hold | ⟨heq, hsame⟩
      · rcases ih with hrest | ⟨k', hk', rest, hnew⟩
        · exact .inl (.link hold hrest)
        · exact .inr ⟨k', by omega, rest, hnew⟩
      · obtain ⟨-, rfl⟩ := List.cons.inj heq
        obtain rfl := Node.link.inj hsame
        exact .inr ⟨k, Nat.lt_succ_self k, cs, hrest⟩

/-- The target of a new link leads where it led before. -/
theorem follows_add_link_target : (t.add e n (.link target)).Follows k
    (if target.absolute then [] else e) target.comps l ↔
    t.Follows k (if target.absolute then [] else e) target.comps l := by
  have hextends := t.extends_add e n (.link target)
  constructor
  · intro h
    have hdown (k : ℕ) (rest : List Comp) (l : Loc) (hall : (t.add e n (.link target)).Follows k
        (if target.absolute then [] else e) (target.comps ++ rest) l) :
        ∃ k₁ l₁, t.Follows k₁ (if target.absolute then [] else e) target.comps l₁ := by
      induction k using Nat.strong_induction_on generalizing rest with
      | _ k ih =>
          rcases hall.add_link_cases with hold | ⟨k', hk', rest', hnew⟩
          · exact hold.of_append
          · exact ih k' hk' rest' hnew
    rw [← List.append_nil target.comps] at h
    obtain ⟨k₁, l₁, hold⟩ := hdown k [] l h
    rw [List.append_nil] at h
    obtain ⟨rfl, rfl⟩ := (hold.extends hextends).unique h
    exact hold
  · exact Follows.extends hextends

/-- A path that ends in a new link leads where its target led from there, if
the links that are left are enough. -/
theorem walk_new_link (target : Path) {s : Loc} (hplace : t.Follows k s cs e)
    (he : t.node? e = some .dir) (hfree : t.node? (n :: e) = none) :
    (t.add e n (.link target)).walk b s (cs ++ [.name n]) = some l ↔
      ∃ k', k + k' + 1 ≤ b ∧ t.Follows k' (if target.absolute then [] else e) target.comps l := by
  have hextends := t.extends_add e n (.link target)
  have hlink : (t.add e n (.link target)).node? (n :: e) = some (.link target) := by
    rw [node?_add, if_pos ⟨⟨he, hfree⟩, rfl⟩]
  rw [walk_eq_some_iff]
  constructor
  · rintro ⟨m, hm, hfollows⟩
    obtain ⟨k₁, rfl, hname⟩ :=
      (follows_append_iff (hplace.extends hextends) (hextends e _ he)).mp hfollows
    obtain ⟨k', rfl, hrest⟩ := (follows_link_iff hlink).mp hname
    rw [List.append_nil, follows_add_link_target] at hrest
    exact ⟨k', by omega, hrest⟩
  · rintro ⟨k', hle, hrest⟩
    refine ⟨k + (k' + 1), by omega, (hplace.extends hextends).append (hextends e _ he) ?_⟩
    refine .link hlink ?_
    rw [List.append_nil]
    exact hrest.extends hextends

end EsNotebook.FileTree
