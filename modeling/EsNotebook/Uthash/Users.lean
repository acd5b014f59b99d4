import EsNotebook.Lib.Lts
import EsNotebook.Uthash.Table

/-!
# The user store

`uthash_sample.c` keeps users in a hash, by their numbers, and obeys commands
from a menu.  What `malloc` returns is part of a command, with whatever is in
the memory; the lines of the menu are not modelled.
-/

namespace EsNotebook.Uthash

abbrev Id := BitVec 32

/-- `struct my_struct` -/
abbrev MyStruct := Item Id (List Char)

/-- The size of `name`. -/
def nameSize : ℕ := 10

/-- What `malloc` returns for a user and for a hash table, and what is in the
memory of the user. -/
structure Malloc where
  user : Addr
  tbl : Addr
  junkName : List Char
  junk : UtHashHandle
  deriving DecidableEq, Repr

/-- Memory that is all zero. -/
def Malloc.zeroed (user tbl : Addr) : Malloc := ⟨user, tbl, [], ⟨0, none, none, none, none, 0⟩⟩

/-- A number in memory, the low byte first. -/
def idBytes (id : Id) : List (BitVec 8) :=
  [id.extractLsb' 0 8, id.extractLsb' 8 8, id.extractLsb' 16 8, id.extractLsb' 24 8]

def hashInt (id : Id) : BitVec 32 := hashJen (idBytes id)

/-! ## The functions -/

/-- `strcpy(s->name, name)`, which must not run into the hash handle. -/
def strcpyName (users : Hash Id (List Char)) (s : Addr) (name : List Char) :
    Option (Hash Id (List Char)) :=
  if name.length < nameSize then
    (users.items.store s fun r ↦ { r with val := name }).map fun h ↦ { users with items := h }
  else none

/-- `find_user` -/
def findUser (users : Hash Id (List Char)) (userId : Id) : Option (Option Addr) :=
  hashFind hashInt users userId

/-- `add_user` -/
def addUser (users : Hash Id (List Char)) (userId : Id) (name : List Char) (m : Malloc) :
    Option (Hash Id (List Char)) := do
  match ← findUser users userId with
  | some s => strcpyName users s name
  | none =>
      let items := users.items.alloc m.user ⟨userId, m.junkName, m.junk⟩
      let users ← hashAdd hashInt { users with items := items } m.user m.tbl
      strcpyName users m.user name

/-- `delete_user` -/
def deleteUser (users : Hash Id (List Char)) (user : Addr) : Option (Hash Id (List Char)) :=
  (hashDelete users user).map fun users ↦ { users with items := users.items.free user }

/-- `hh.next` of the item at a pointer, and null for the null pointer. -/
def nextOf (users : Hash Id (List Char)) : Option Addr → Option (Option Addr)
  | none => some none
  | some a => (users.items.get? a).map fun r ↦ r.hh.next

/-- The loop of `delete_all` at the user `el`; `tmp` is the one after it. -/
def deleteAllLoop :
    ℕ → Option Addr → Option Addr → Hash Id (List Char) → Option (Hash Id (List Char))
  | 0, _, _, _ => none
  | _ + 1, none, _, users => some users
  | fuel + 1, some el, tmp, users => do
      let users ← deleteUser users el
      deleteAllLoop fuel tmp (← nextOf users tmp) users

/-- `delete_all` -/
def deleteAll (users : Hash Id (List Char)) : Option (Hash Id (List Char)) := do
  deleteAllLoop (users.items.size + 1) users.head (← nextOf users users.head) users

/-- A line that the program prints. -/
inductive Line where
  | user (id : Id) (name : List Char)
  | found (name : Option (List Char))
  | idUnknown
  | count (n : ℕ)
  deriving DecidableEq, Repr

/-- The loop of `print_users`. -/
def printLoop (users : Hash Id (List Char)) : ℕ → Option Addr → Option (List Line)
  | 0, _ => none
  | _ + 1, none => some []
  | fuel + 1, some s => do
      let r ← users.items.get? s
      let rest ← printLoop users fuel r.hh.next
      some (.user r.key r.val :: rest)

/-- `print_users` -/
def printUsers (users : Hash Id (List Char)) : Option (List Line) :=
  printLoop users (users.items.size + 1) users.head

/-- `strcmp`, of which only the sign is specified. -/
def strcmp : List Char → List Char → ℤ
  | [], [] => 0
  | [], _ :: _ => -1
  | _ :: _, [] => 1
  | c :: cs, d :: ds => if c = d then strcmp cs ds else if c < d then -1 else 1

/-- `name_sort` -/
def nameSort (a b : Id × List Char) : ℤ := strcmp a.2 b.2

/-- `id_sort`, with a difference that wraps. -/
def idSort (a b : Id × List Char) : ℤ := (a.1 - b.1).toInt

/-- `sort_by_name` -/
def sortByName (users : Hash Id (List Char)) : Option (Hash Id (List Char)) :=
  hashSrt nameSort users

/-- `sort_by_id` -/
def sortById (users : Hash Id (List Char)) : Option (Hash Id (List Char)) :=
  hashSrt idSort users

/-! ## The menu -/

/-- The commands of the menu, in its order. -/
inductive Command where
  | addUser (name : List Char) (m : Malloc)
  | addById (id : Id) (name : List Char) (m : Malloc)
  | findUser (id : Id)
  | deleteUser (id : Id)
  | deleteAll
  | sortByName
  | sortById
  | printUsers
  | countUsers
  | quit
  deriving DecidableEq, Repr

/-- The variables of the program and what it has printed. -/
structure Program where
  users : Hash Id (List Char)
  id : Id
  running : Bool
  out : List Line

def Program.init : Program where
  users := ⟨none, ⟨[]⟩, ⟨[]⟩⟩
  id := 1
  running := true
  out := []

/-- One round of the loop of `main`. -/
def Program.exec (s : Program) : Command → Option Program
  | .addUser name m =>
      (Uthash.addUser s.users s.id name m).map fun users ↦ { s with users := users, id := s.id + 1 }
  | .addById id name m =>
      (Uthash.addUser s.users id name m).map fun users ↦ { s with users := users, id := id }
  | .findUser id => do
      match ← Uthash.findUser s.users id with
      | none => some { s with out := s.out ++ [.found none] }
      | some a =>
          (s.users.items.get? a).map fun r ↦ { s with out := s.out ++ [.found (some r.val)] }
  | .deleteUser id => do
      match ← Uthash.findUser s.users id with
      | none => some { s with out := s.out ++ [.idUnknown] }
      | some a => (Uthash.deleteUser s.users a).map fun users ↦ { s with users := users }
  | .deleteAll => (Uthash.deleteAll s.users).map fun users ↦ { s with users := users }
  | .sortByName => (Uthash.sortByName s.users).map fun users ↦ { s with users := users }
  | .sortById => (Uthash.sortById s.users).map fun users ↦ { s with users := users }
  | .printUsers => (Uthash.printUsers s.users).map fun lines ↦ { s with out := s.out ++ lines }
  | .countUsers => (hashCount s.users).map fun n ↦ { s with out := s.out ++ [.count n] }
  | .quit =>
      (Uthash.deleteAll s.users).map fun users ↦ { s with users := users, running := false }

/-- What `malloc` returns is not allocated. -/
def Malloc.Fresh (m : Malloc) (users : Hash Id (List Char)) : Prop :=
  users.items.get? m.user = none ∧ users.tables.get? m.tbl = none

instance (m : Malloc) (users : Hash Id (List Char)) : Decidable (m.Fresh users) :=
  inferInstanceAs (Decidable (_ ∧ _))

/-- The commands that the program can read. -/
def Program.Reads (s : Program) : Command → Prop
  | .addUser _ m => s.running = true ∧ m.Fresh s.users
  | .addById _ _ m => s.running = true ∧ m.Fresh s.users
  | _ => s.running = true

instance (s : Program) (c : Command) : Decidable (s.Reads c) :=
  match c with
  | .addUser _ m | .addById _ _ m => inferInstanceAs (Decidable (s.running = true ∧ m.Fresh s.users))
  | .findUser _ | .deleteUser _ | .deleteAll | .sortByName | .sortById | .printUsers | .countUsers
  | .quit => inferInstanceAs (Decidable (s.running = true))

def Program.step (s : Program) (c : Command) : Option Program :=
  if s.Reads c then s.exec c else none

/-- The program, from its start. -/
def userProgram : Lts Program Command := Lts.ofStep .init Program.step

end EsNotebook.Uthash
