import EsNotebook.Uthash.Sorting
import EsNotebook.Uthash.Users
import Mathlib.Data.Char
import Mathlib.Data.List.Lex

/-!
# The book of users

What the menu of `uthash_sample.c` is for, without the hash: a list of users
under distinct numbers, in the order in which they were added or last sorted.
-/

namespace EsNotebook.Uthash

/-- A user's number and name. -/
abbrev User := Id × List Char

structure Book where
  users : List User
  id : Id
  running : Bool
  out : List Line

namespace Book

def init : Book := ⟨[], 1, true, []⟩

/-- Rename the user under a number, or add one at the end. -/
def put (l : List User) (id : Id) (name : List Char) : List User :=
  if (l.lookup id).isSome then l.map fun u ↦ if u.1 = id then (id, name) else u
  else l ++ [(id, name)]

def remove (l : List User) (id : Id) : List User := l.filter fun u ↦ u.1 ≠ id

/-- The order of the names is that of their characters. -/
def nameLe (u v : User) : Bool := decide (u.2 ≤ v.2)

def idLe (u v : User) : Bool := decide (u.1.toInt ≤ v.1.toInt)

/-- No two numbers are so far apart that their difference wraps. -/
def DifferencesFit (l : List User) : Prop :=
  ∀ u ∈ l, ∀ v ∈ l, u.1.toInt - v.1.toInt < 2 ^ 31

/-- What a command does to the book.  An order by numbers that do not fit is
not specified. -/
def Step (b : Book) : Command → Book → Prop
  | .addUser name _, b' => b' = { b with users := put b.users b.id name, id := b.id + 1 }
  | .addById id name _, b' => b' = { b with users := put b.users id name, id := id }
  | .findUser id, b' => b' = { b with out := b.out ++ [.found (b.users.lookup id)] }
  | .deleteUser id, b' =>
      b' = if (b.users.lookup id).isSome then { b with users := remove b.users id }
        else { b with out := b.out ++ [.idUnknown] }
  | .deleteAll, b' => b' = { b with users := [] }
  | .sortByName, b' => b' = { b with users := b.users.mergeSort nameLe }
  | .sortById, b' => ∃ l, b' = { b with users := l } ∧ l.Perm b.users ∧
      (DifferencesFit b.users → l = b.users.mergeSort idLe)
  | .printUsers, b' => b' = { b with out := b.out ++ b.users.map fun u ↦ .user u.1 u.2 }
  | .countUsers, b' => b' = { b with out := b.out ++ [.count b.users.length] }
  | .quit, b' => b' = { b with users := [], running := false }

end Book

/-- The names in a command fit in a user's record, with their ends. -/
def Command.Fits : Command → Prop
  | .addUser name _ | .addById _ name _ => name.length < nameSize
  | _ => True

instance (c : Command) : Decidable c.Fits :=
  match c with
  | .addUser name _ | .addById _ name _ => inferInstanceAs (Decidable (name.length < nameSize))
  | .findUser _ | .deleteUser _ | .deleteAll | .sortByName | .sortById | .printUsers | .countUsers
  | .quit => inferInstanceAs (Decidable True)

/-- The book, from its start. -/
def bookProgram : Lts Book Command where
  init b := b = .init
  step b c b' := b.running = true ∧ c.Fits ∧ b.Step c b'

/-! ## The numbers stay distinct -/

namespace Book

variable {l l' : List User} {id : Id} {name : List Char}

theorem lookup_eq_some_iff (hnodup : (l.map Prod.fst).Nodup) :
    l.lookup id = some name ↔ (id, name) ∈ l := by
  induction l with
  | nil => simp
  | cons u l ih =>
      obtain ⟨k, v⟩ := u
      obtain ⟨hk, hl⟩ := List.nodup_cons.mp hnodup
      by_cases hid : id = k
      · subst hid
        have hno : (id, name) ∉ l := fun hmem ↦ hk (List.mem_map.mpr ⟨_, hmem, rfl⟩)
        simp [hno, eq_comm]
      · have hbeq : (id == k) = false := by simpa using hid
        simp [List.lookup_cons, hbeq, ih hl, hid]

theorem isSome_lookup_iff : (l.lookup id).isSome ↔ id ∈ l.map Prod.fst := by
  rw [List.lookup_isSome_iff, List.mem_map]
  exact exists_congr fun u ↦ and_congr_right fun _ ↦ by rw [beq_iff_eq, eq_comm]

theorem put_of_mem (h : id ∈ l.map Prod.fst) :
    put l id name = l.map fun u ↦ if u.1 = id then (id, name) else u :=
  if_pos (isSome_lookup_iff.mpr h)

theorem put_of_notMem (h : id ∉ l.map Prod.fst) : put l id name = l ++ [(id, name)] :=
  if_neg fun hsome ↦ h (isSome_lookup_iff.mp hsome)

theorem nodup_put (hnodup : (l.map Prod.fst).Nodup) : ((put l id name).map Prod.fst).Nodup := by
  by_cases h : id ∈ l.map Prod.fst
  · have hkeys : (put l id name).map Prod.fst = l.map Prod.fst := by
      rw [put_of_mem h, List.map_map]
      refine List.map_congr_left fun u _ ↦ ?_
      by_cases hu : u.1 = id <;> simp [hu]
    rwa [hkeys]
  · rw [put_of_notMem h, List.map_append]
    refine List.nodup_append.mpr ⟨hnodup, List.nodup_singleton id, fun k hk k' hk' heq ↦ h ?_⟩
    obtain rfl : k' = id := by simpa using hk'
    exact heq ▸ hk

theorem nodup_remove (hnodup : (l.map Prod.fst).Nodup) : ((remove l id).map Prod.fst).Nodup :=
  hnodup.sublist (List.Sublist.map _ List.filter_sublist)

/-! ## The orders of the source -/

/-- `strcmp` compares as the order of the characters does. -/
theorem strcmp_pos_iff (s t : List Char) : 0 < strcmp s t ↔ t < s := by
  induction s generalizing t with
  | nil => cases t <;> simp [strcmp]
  | cons c s ih =>
      cases t with
      | nil => simp [strcmp]
      | cons d t =>
          rw [strcmp, List.cons_lt_cons_iff]
          rcases lt_trichotomy c d with hlt | rfl | hlt
          · simp [hlt, hlt.ne, hlt.ne', hlt.not_gt]
          · simpa using ih t
          · simp [hlt, hlt.ne', hlt.not_gt]

theorem cmpLe_nameSort : cmpLe nameSort = nameLe := by
  funext u v
  rw [cmpLe, nameLe, decide_eq_decide, ← not_lt, ← not_lt]
  exact not_congr (strcmp_pos_iff u.2 v.2)

theorem idSort_eq (hfit : DifferencesFit l) {u v : User} (hu : u ∈ l) (hv : v ∈ l) :
    idSort u v = u.1.toInt - v.1.toInt := by
  have huv := hfit u hu v hv
  have hvu := hfit v hv u hu
  rw [idSort, BitVec.toInt_sub]
  exact Int.bmod_eq_of_le (by omega) (by omega)

theorem mergePasses_nameSort : mergePasses (cmpLe nameSort) 1 l = l.mergeSort nameLe := by
  rw [cmpLe_nameSort]
  refine mergePasses_eq_mergeSort ?_ ?_ l
  · intro u v w huv hvw
    simp only [nameLe, decide_eq_true_eq] at *
    exact huv.trans hvw
  · intro u v
    simpa [nameLe] using le_total u.2 v.2

theorem mergePasses_idSort (hfit : DifferencesFit l) :
    mergePasses (cmpLe idSort) 1 l = l.mergeSort idLe := by
  have hle : mergePasses (cmpLe idSort) 1 l = mergePasses idLe 1 l := by
    have hmap : (mergePasses (cmpLe idSort) 1 l).map (fun u ↦ u)
        = mergePasses idLe 1 (l.map fun u ↦ u) :=
      map_mergePasses Nat.one_pos fun u hu v hv ↦ by
        rw [cmpLe, idLe, idSort_eq hfit hu hv, decide_eq_decide]
        omega
    rwa [List.map_id', List.map_id'] at hmap
  rw [hle]
  refine mergePasses_eq_mergeSort ?_ ?_ l
  · intro u v w huv hvw
    simp only [idLe, decide_eq_true_eq] at *
    omega
  · intro u v
    simp only [idLe, Bool.or_eq_true, decide_eq_true_eq]
    omega

end Book

end EsNotebook.Uthash
