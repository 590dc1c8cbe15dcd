/-
# Processing the collected columns

`Gatherer.process` runs the definitions of all groups over one dataset, which holds the
collected columns and the output columns made so far.  A definition takes its column
away when it renames it; a column that several definitions of a group use is copied
before the group, and given back after each of them but the last.  What is left of the
dataset is then pivoted for each group.
-/
import Ptolemy.DriverMaps

namespace Gatherer

open DriverMaps

/-- A group of a driver: its definitions by output field, in their order. -/
structure Group : Type where
  groupByKey : Bool
  defs : List (String × DriverMaps.Item)

/-- The groups of a driver. -/
abbrev Driver : Type := Dict String Group

/-- The dataset, how many definitions still want each reference, and the copied columns. -/
structure Work : Type where
  result : DriverMaps.Data
  wantedRefsCount : Dict String Int := ∅
  wantedRefs : Dict String Column := ∅

variable (env : Env)

/-- Counting the references of a group. -/
def countRefs (defs : List (String × DriverMaps.Item)) (count : Dict String Int) :
    Dict String Int :=
  defs.foldl (fun count d => match d.2.ref with
    | some r => AList.insert r ((count.lookup r).getD 0 + 1) count
    | none => count) count

/-- `str(result.keys())`. -/
def keysText (result : Dataset) : String :=
  "[" ++ Text.join ", " ((env.order.order result.items).map (fun p => "'" ++ p.1 ++ "'")) ++ "]"

/-- The exception for a reference that cannot be copied. -/
def couldNotCopy (r : String) : DriverMaps.Data → Exn
  | .dataset d => .refNotFound ("could not copy " ++ r ++ " (" ++ keysText env d ++ ")")
  | .array _ => .attributeError "'list' object has no attribute 'keys'"

/-- Copying the columns that are wanted more than once. -/
def copyRefs (w : Work) : Except Exn Work :=
  (env.order.order w.wantedRefsCount.items).foldlM (fun w p =>
    if 1 < p.2 then do
      match ← w.result.column? p.1 with
      | none => .error (couldNotCopy env p.1 w.result)
      | some c => .ok { w with wantedRefs := AList.insert p.1 c w.wantedRefs }
    else .ok w) w

/-- The column `x` with the copy laid over it. -/
def giveBack (x : String) (copied : Column) : DriverMaps.Data → Except Exn DriverMaps.Data
  | .dataset d => .ok (if copied.items.isEmpty then .dataset d
      else .dataset (AList.insert x (Dict.overlay ((d.lookup x).getD ∅) copied) d))
  | .array l => if copied.items.isEmpty then .ok (.array l) else .error listIndex

/-- Counting down a reference, and giving its column back where it is still wanted. -/
def countDown (w : Work) (r : String) : Except Exn Work :=
  let n := (w.wantedRefsCount.lookup r).getD 0 - 1
  let w' := { w with wantedRefsCount := AList.insert r n w.wantedRefsCount }
  if 0 < n then
    match w.wantedRefs.lookup r with
    | none => .error (.keyError r)
    | some copied => (giveBack r copied w.result).map (fun result => { w' with result := result })
  else .ok w'

/-- One definition. -/
def processDef (parent : Results) (w : Work) (d : String × DriverMaps.Item) :
    Except Exn Work := do
  let result ← remap env parent w.result d.1 d.2
  match d.2.ref with
  | none => .ok { w with result := result }
  | some r => countDown { w with result := result } r

/-- The definitions of one group. -/
def processGroup (parent : Results) (ignore : List String) (w : Work) (g : String × Group) :
    Except Exn Work :=
  if g.1 ∈ ignore then .ok w
  else do
    let w ← copyRefs env { w with wantedRefsCount := countRefs g.2.defs w.wantedRefsCount }
    g.2.defs.foldlM (processDef env parent) w

/-- The output fields of the groups that are not ignored. -/
def wantedFields (ignore : List String) (groups : List (String × Group)) : List String :=
  (groups.filter (fun g => decide (g.1 ∉ ignore))).flatMap (fun g => g.2.defs.map Prod.fst)

/-- One value of a pivoted column: rows by index, where the text `None` is null, or columns by
field. -/
def pivotValue (byKey : Bool) (f : String) (out : Dict Value Column) (k v : Value) :
    Dict Value Column :=
  if byKey then
    AList.insert k (AList.insert (.str f) (if v = .str "None" then .none else v)
      ((out.lookup k).getD ∅)) out
  else AList.insert (.str f) (AList.insert k v ((out.lookup (.str f)).getD ∅)) out

/-- The columns of the fields of a group, pivoted. -/
def pivot (byKey : Bool) (fields : List String) (result : Dataset) : Dict Value Column :=
  (env.order.order result.items).foldl (fun out p =>
    if p.1 ∈ fields then
      (env.order.order p.2.items).foldl (fun out q => pivotValue byKey p.1 out q.1 q.2) out
    else out) ∅

/-- One row without a field, or nothing where no field is left. -/
def cleanRow (f : String) (out : Dict Value Column) (p : Value × Column) : Dict Value Column :=
  if (AList.erase (.str f) p.2).keys.isEmpty then AList.erase p.1 out
  else AList.insert p.1 (AList.erase (.str f) p.2) out

/-- Removing a field that is marked to be cleaned. -/
def cleanField (byKey : Bool) (out : Dict Value Column) (f : String) :
    Except Exn (Dict Value Column) :=
  if byKey then .ok ((env.order.order out.items).foldl (cleanRow f) out)
  else if Value.str f ∈ out then .ok (AList.erase (.str f) out)
  else .error (.keyError f)

/-- The output of one group. -/
def pivotGroup (g : Group) (result : Dataset) : Except Exn (Dict Value Column) :=
  ((g.defs.filter (fun d => d.2.clean)).map Prod.fst).foldlM (cleanField env g.groupByKey)
    (pivot env g.groupByKey (g.defs.map Prod.fst) result)

/-- The outputs of all groups, from what the definitions have left. -/
def pivotGroups (ignore : List String) (groups : List (String × Group)) :
    DriverMaps.Data → Except Exn Results
  | .array _ => .error (.attributeError "'list' object has no attribute 'keys'")
  | .dataset d => groups.foldlM (fun out g =>
      (pivotGroup env g.2 (Dict.restrict (fun f => decide (f ∈ wantedFields ignore groups)) d)).map
        (fun r => AList.insert g.1 r out)) ∅

/-- The groups in the order in which they are gone through. -/
def processGroups (parent : Results) (ignore : List String) (groups : List (String × Group))
    (result : Dataset) : Except Exn Results := do
  let w ← groups.foldlM (processGroup env parent ignore) { result := .dataset result }
  pivotGroups env ignore groups w.result

/-- `Gatherer.process`. -/
def process (parent : Results) (ignore : List String) (driver : Driver) (result : Dataset) :
    Except Exn Results :=
  processGroups env parent ignore (env.order.order driver.items) result

end Gatherer
