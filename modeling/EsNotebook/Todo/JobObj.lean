import EsNotebook.Lib.PyTime
import Mathlib.Data.List.AList

/-!
# Jobs

The class `job_obj` and the dict of jobs that the commands work on.  A job is
made from a line of the todo file or, with `None`, empty; `show(1)` writes
such a line.  Conversions that raise end in an error.
-/

namespace EsNotebook.Todo

open Py

/-- `serviceError` stands for what the service and its libraries raise. -/
inductive PyError where
  | valueError
  | indexError
  | keyError
  | attributeError
  | systemExit
  | serviceError
  deriving DecidableEq, Repr

theorem bind_eq_ok_iff {ε α β : Type} {x : Except ε α} {f : α → Except ε β} {b : β} :
    (x >>= f) = .ok b ↔ ∃ a, x = .ok a ∧ f a = .ok b := by
  cases x <;> simp [bind, Except.bind]

/-- What raises `ValueError` when it has no result. -/
def orValueError {α : Type*} : Option α → Except PyError α
  | some a => .ok a
  | none => .error .valueError

theorem orValueError_eq_ok_iff {α : Type*} {o : Option α} {a : α} :
    orValueError o = .ok a ↔ o = some a := by
  cases o <;> simp [orValueError]

/-- `COLUMN_SEP` -/
def columnSep : Str := [',', ',']

/-- What the next save asks of the service for this job. -/
inductive ActReq where
  | none
  | del
  | edit
  deriving DecidableEq, Repr

/-- `datetime` is `none` as long as the attribute does not exist. -/
structure JobObj where
  idx : ℤ
  job_name : Str
  comments : Str
  datetime : Option Date
  gid : Str
  actreq : ActReq
  deriving DecidableEq, Repr

/-- The id of a job that the service does not have yet. -/
def newGid : Str := ['n', 'e', 'w']

namespace JobObj

/-- `job_obj(None)` -/
def blank : JobObj :=
  { idx := 0, job_name := [], comments := [], datetime := none, gid := newGid, actreq := .none }

/-- `job_obj(linevalue)`.  With exactly three fields the comment is missing
and the access fails. -/
def ofLine (linevalue : Str) : Except PyError JobObj :=
  match split columnSep (strip linevalue) with
  | fieldId :: fieldDate :: fieldJobname :: rest => do
      let idx ← orValueError (parseInt fieldId)
      match rest with
      | [] => .error .indexError
      | fieldComment :: _ =>
          let date ← orValueError (strptime '/' (strip fieldDate))
          .ok { blank with
            idx := idx, job_name := strip fieldJobname, comments := strip fieldComment
            datetime := some date }
  | _ => .ok blank

/-- The line that `show(1)` prints. -/
def show1 (j : JobObj) : Except PyError Str :=
  match j.datetime with
  | none => .error .attributeError
  | some date => do
      let date ← orValueError (strftime '/' date)
      .ok (formatInt j.idx ++ columnSep ++ [' '] ++ date ++ columnSep ++ [' '] ++ j.job_name ++
        columnSep ++ [' '] ++ j.comments)

end JobObj

/-- The dict from indexes to jobs. -/
abbrev Joblist := AList fun _ : ℤ ↦ JobObj

/-- `joblist_new_idx` -/
def joblistNewIdx (joblist : Joblist) : ℤ :=
  joblist.keys.foldl (fun ret x ↦ if ret ≤ x then x + 1 else ret) 1

end EsNotebook.Todo
