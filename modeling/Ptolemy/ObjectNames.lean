/-
# Object identifiers and their names

A column is asked for by its label, and `OID` finds the identifier.  A row comes with an
identifier, which the SNMP library renders as `module::label.index`; `decode` takes the
text apart.  An index may hold any characters, and one with a second `::` cannot be
decoded.

What the library knows of the names is a parameter.
-/
import Ptolemy.PostRemap

namespace NetSNMP

/-- The sub-identifiers, as the library gets them. -/
abbrev Oid : Type := List ℕ

/-- What the SNMP library knows of the names. -/
structure Mib : Type where
  /-- `which_module`, for a module that was to be read. -/
  whichModule : String → Bool
  /-- `get_module_node`: the node of a name in a module. -/
  getModuleNode : String → String → Option Oid
  /-- `get_node`: the node of a label. -/
  getNode : String → Option Oid
  /-- `snprint_objid`: the text of an identifier. -/
  snprintObjid : Oid → String
  /-- The enumeration of the node that is nearest to an identifier. -/
  enums : Oid → Dict Int String := fun _ => ∅

variable (mib : Mib)

/-! ## From names to identifiers -/

/-- A number in its 64 bits. -/
def subIdentifier (n : Int) : ℕ := (n % 2 ^ 64).toNat

/-- `seq.strip('.')`, on characters. -/
def stripDots (l : List Char) : List Char :=
  ((l.dropWhile (fun c => c = '.')).reverse.dropWhile (fun c => c = '.')).reverse

/-- The node of a name in a module. -/
def Mib.nodeIn (module seq : String) : Except Exn Oid :=
  match mib.getModuleNode seq module with
  | some o => .ok o
  | none => .error (.exception (if module = "ANY" then "Cannot translate name '" ++ seq ++ "' to OID"
      else "Cannot find node " ++ seq ++ " in " ++ module))

/-- `OID` of a text: numbers, or a name, perhaps with its module. -/
def Mib.translate (seq : String) : Except Exn Oid :=
  match (Text.split '.' (String.ofList (stripDots seq.toList))).mapM Text.int? with
  | some numbers => .ok (numbers.map subIdentifier)
  | none => match Text.partition ':' seq with
    | (_, false, _) => mib.nodeIn "ANY" seq
    | (module, true, rest) =>
      -- what follows `::` is cut off from a variable that there is not
      if ":".toList.isPrefixOf rest.toList then
        .error (.exception "global name 'string' is not defined")
      else mib.nodeIn (if mib.whichModule module then module else "ANY") rest

theorem stripDots_of_notMem {l : List Char} (h : '.' ∉ l) : stripDots l = l := by
  have hdrop : ∀ m : List Char, '.' ∉ m → m.dropWhile (fun c => c = '.') = m := by
    intro m hm
    cases m with
    | nil => rfl
    | cons c m => exact List.dropWhile_cons_of_neg (fun hc => hm (of_decide_eq_true hc ▸
        List.mem_cons_self))
  unfold stripDots
  rw [hdrop l h, hdrop l.reverse (fun hc => h (List.mem_reverse.mp hc)), List.reverse_reverse]

/-- A label: neither a number, nor of several parts. -/
structure IsLabel (s : String) : Prop where
  colon : ':' ∉ s.toList
  dot : '.' ∉ s.toList
  number : Text.int? s = none

/-- A label is looked up in all modules. -/
theorem translate_of_isLabel {label : String} (h : IsLabel label) :
    mib.translate label = mib.nodeIn "ANY" label := by
  have hsplit : Text.split '.' (String.ofList (stripDots label.toList)) = [label] := by
    rw [stripDots_of_notMem h.dot, String.ofList_toList, Text.split,
      Text.splitChars_of_notMem h.dot, List.map_singleton, String.ofList_toList]
  have hnone : [label].mapM Text.int? = none := by
    rw [List.mapM_cons, h.number]
    rfl
  have hcolon : label.toList.contains ':' = false := by
    rw [← Bool.not_eq_true, List.contains_iff_mem]
    exact h.colon
  unfold Mib.translate
  rw [hsplit, hnone]
  simp only [Text.partition, hcolon]

/-! ## From identifiers to names -/

/-- `str(oid)`. -/
def dotted (o : Oid) : String := "." ++ Text.join "." (o.map (fun n => toString n))

/-- `str(self.name_to_oid(f))`. -/
def Mib.nameToOid (f : String) : String :=
  match mib.getNode f with
  | some o => dotted o
  | none => "None"

/-- `s.split('::')`, on characters. -/
def splitColons : List Char → List (List Char)
  | [] => [[]]
  | ':' :: ':' :: cs => [] :: splitColons cs
  | c :: cs => match splitColons cs with
    | [] => [[c]]
    | p :: ps => (c :: p) :: ps

/-- `OID.decode`: the label and the index; `None` where the text does not have two parts. -/
def Mib.decode (o : Oid) : Option String × Option String :=
  match splitColons (mib.snprintObjid o).toList with
  | [_, rest] =>
    let (f, _, iid) := Text.partition '.' (String.ofList rest)
    -- an index that is rendered as a text is given in numbers
    (some f, some (if "'".toList.isPrefixOf iid.toList then
      Driver.withoutText (mib.nameToOid f ++ ".") (dotted o) else iid))
  | _ => (none, none)

theorem splitColons_ne_nil (l : List Char) : splitColons l ≠ [] := by
  fun_cases splitColons l with
  | case1 | case2 | case3 | case4 => exact List.cons_ne_nil _ _

theorem splitColons_cons {c : Char} {l : List Char} (h : c ≠ ':') :
    splitColons (c :: l) = (splitColons l).modifyHead (c :: ·) := by
  rw [splitColons.eq_3 c l (fun _ hc _ => h hc)]
  cases hs : splitColons l with
  | nil => exact absurd hs (splitColons_ne_nil l)
  | cons p ps => rfl

theorem splitColons_of_notMem {l : List Char} (h : ':' ∉ l) : splitColons l = [l] := by
  induction l with
  | nil => rfl
  | cons c l ih =>
    rw [splitColons_cons (fun hc => h (hc ▸ List.mem_cons_self)),
      ih (fun hc => h (List.mem_cons_of_mem c hc))]
    rfl

theorem splitColons_append {l : List Char} (r : List Char) (h : ':' ∉ l) :
    splitColons (l ++ ':' :: ':' :: r) = l :: splitColons r := by
  induction l with
  | nil => rfl
  | cons c l ih =>
    rw [List.cons_append, splitColons_cons (fun hc => h (hc ▸ List.mem_cons_self)),
      ih (fun hc => h (List.mem_cons_of_mem c hc))]
    rfl

/-- A text that is in one piece. -/
theorem eq_of_splitColons {l p : List Char} (h : splitColons l = [p]) : p = l := by
  induction l using splitColons.induct generalizing p with
  | case1 =>
    rw [splitColons] at h
    exact (List.head_eq_of_cons_eq h).symm
  | case2 cs ih =>
    rw [splitColons] at h
    exact absurd (List.tail_eq_of_cons_eq h) (splitColons_ne_nil cs)
  | case3 c cs hc hs ih => exact absurd hs (splitColons_ne_nil cs)
  | case4 c cs hc q qs hs ih =>
    rw [splitColons.eq_3 c cs hc, hs] at h
    obtain ⟨rfl, rfl⟩ : c :: q = p ∧ qs = [] := List.cons_eq_cons.mp h
    rw [ih hs]

section Rendered

variable {mib} {o : Oid} {module label : String}

/-- Only what has a label has an index. -/
theorem decode_snd_ne_none : (mib.decode o).2 ≠ none ↔ ∃ f, (mib.decode o).1 = some f := by
  unfold Mib.decode
  split <;> simp

/-- The label of a column. -/
theorem decode_of_column (hm : ':' ∉ module.toList) (hl : IsLabel label)
    (h : mib.snprintObjid o = module ++ "::" ++ label) : (mib.decode o).1 = some label := by
  have hchars : (mib.snprintObjid o).toList = module.toList ++ ':' :: ':' :: label.toList := by
    rw [h, String.toList_append, String.toList_append, List.append_assoc]
    rfl
  have hdot : label.toList.takeWhile (fun c => decide (c ≠ '.')) = label.toList :=
    List.takeWhile_eq_self_iff.mpr (fun c hc => decide_eq_true (fun heq => hl.dot (heq ▸ hc)))
  unfold Mib.decode
  rw [hchars, splitColons_append _ hm, splitColons_of_notMem hl.colon]
  simp only [Text.partition, hdot, String.ofList_toList]

/-- The label of an instance, if it can be decoded. -/
theorem decode_of_instance {index : String} (hm : ':' ∉ module.toList) (hl : IsLabel label)
    (h : mib.snprintObjid o = module ++ "::" ++ label ++ "." ++ index)
    (hindex : (mib.decode o).2 ≠ none) : (mib.decode o).1 = some label := by
  have hchars : (mib.snprintObjid o).toList
      = module.toList ++ ':' :: ':' :: (label.toList ++ '.' :: index.toList) := by
    rw [h, String.toList_append, String.toList_append, String.toList_append, String.toList_append]
    simp
  have hpos : ∀ c ∈ label.toList, decide (c ≠ '.') = true :=
    fun c hc => decide_eq_true (fun heq => hl.dot (heq ▸ hc))
  have htake : (label.toList ++ '.' :: index.toList).takeWhile (fun c => decide (c ≠ '.'))
      = label.toList := by
    rw [List.takeWhile_append_of_pos hpos, List.takeWhile_cons_of_neg (by simp), List.append_nil]
  unfold Mib.decode at hindex ⊢
  rw [hchars, splitColons_append _ hm] at hindex ⊢
  -- the rest is in one piece
  cases hs : splitColons (label.toList ++ '.' :: index.toList) with
  | nil => exact absurd hs (splitColons_ne_nil _)
  | cons p ps =>
    rw [hs] at hindex
    cases ps with
    | nil =>
      obtain rfl := eq_of_splitColons hs
      simp only [Text.partition, String.toList_ofList, htake, String.ofList_toList]
    | cons q qs => exact absurd rfl hindex

end Rendered

end NetSNMP
