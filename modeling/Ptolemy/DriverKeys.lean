/-
# Maps that rename the keys of a column

A `regexp` on the keys, and a `function` of them, move the entries of a column one after the
other while the column is gone through (`key_sub` puts a new dictionary in its place instead).
Where all new keys are distinct, the column is the renamed one exactly if no entry is moved
to the old key of an entry that is met later (`keysRenamed_iff`).
-/
import Ptolemy.DriverColumns
import Ptolemy.Renaming

namespace DriverMaps

open Driver (valueEq)
open Renaming

variable {env : Env}

/-- The maps that rename keys: a `regexp` on the keys which names the new key where it matches, and
a `function` of the key. -/
def RenamesKeys (env : Env) : MapDef → Prop
  | .regexp y pattern =>
      y = "key" ∧ ∀ k d, env.match? pattern k = .ok (some d) → "value" ∈ d → "key" ∈ d
  | .function y _ => y = "key"
  | _ => False

/-- The new key of an entry; a key that does not match, or that the function fails for, stays. -/
def newKey (env : Env) : MapDef → Value → Value
  | .regexp _ pattern, k => ((_process_regexp env k pattern).bind (fun d => d.lookup "key")).getD k
  | .function _ func, k =>
      match env.call func k with
      | none => k
      | some j => match hashed j with
        | .error _ => k
        | .ok j => if valueEq j k then k else j
  | _, k => k

theorem valueEq_self (v : Value) : valueEq v v = true := by
  cases v <;> simp [valueEq]

/-- A `regexp` on the keys moves the entries. -/
theorem moves_regexp {y pattern : String} (hm : RenamesKeys env (.regexp y pattern)) :
    Moves (newKey env (.regexp y pattern))
      (fun c k v => regexpEntry (_process_regexp env k pattern) c k v) := by
  refine moves_of_turn (fun c k v => ?_)
  cases hmatch : _process_regexp env k pattern with
  | none =>
    refine Or.inl ⟨?_, rfl⟩
    simp only [newKey, hmatch, Option.bind_none, Option.getD_none]
  | some d =>
    cases hkey : d.lookup "key" with
    | some key =>
      have hnew : newKey env (.regexp y pattern) k = key := by
        simp only [newKey, hmatch, Option.bind_some, hkey, Option.getD_some]
      have hentry : regexpEntry (some d) c k v = AList.insert key v (AList.erase k c) := by
        simp only [regexpEntry, hkey]
      rw [hentry, hnew]
      exact Or.inr (Dict.Same.refl _)
    | none =>
      -- what names no key names no value
      have hvalue : d.lookup "value" = none := by
        refine AList.lookup_eq_none.mpr (fun hmem => ?_)
        refine AList.lookup_eq_none.mp hkey (hm.2 k d ?_ hmem)
        unfold _process_regexp at hmatch
        split at hmatch
        · next d' hd => rw [hd, hmatch]
        · cases hmatch
      refine Or.inl ⟨?_, ?_⟩
      · simp only [newKey, hmatch, Option.bind_some, hkey, Option.getD_none]
      · simp only [regexpEntry, hkey, hvalue]

/-- A `function` of the key moves the entries. -/
theorem moves_callOnKey (y func : String) :
    Moves (newKey env (.function y func)) (fun c k v => callOnKey env func c k v) := by
  refine moves_of_turn (fun c k v => ?_)
  cases hcall : env.call func k with
  | none => exact Or.inl ⟨by simp only [newKey, hcall], by simp only [callOnKey, hcall]⟩
  | some j =>
    cases hhash : hashed j with
    | error e =>
      exact Or.inl ⟨by simp only [newKey, hcall, hhash], by simp only [callOnKey, hcall, hhash]⟩
    | ok j' =>
      cases heq : valueEq j' k with
      | true =>
        refine Or.inl ⟨?_, ?_⟩
        · simp only [newKey, hcall, hhash, heq, if_true]
        · simp only [callOnKey, hcall, hhash, heq, if_true]
      | false =>
        have hnew : newKey env (.function y func) k = j' := by
          simp only [newKey, hcall, hhash, heq, Bool.false_eq_true, if_false]
        have hturn : callOnKey env func c k v = AList.erase k (AList.insert j' v c) := by
          simp only [callOnKey, hcall, hhash, heq, Bool.false_eq_true, if_false]
        have hne : j' ≠ k := by
          rintro rfl
          rw [valueEq_self] at heq
          cases heq
        right
        intro x
        rw [hturn, hnew, Dict.lookup_erase_eq, Dict.lookup_insert_eq, Dict.lookup_insert_eq,
          Dict.lookup_erase_eq]
        by_cases hx : x = k
        · rw [if_pos hx, if_neg (fun hj => hne (hj.symm.trans hx)), if_pos hx]
        · rw [if_neg hx, if_neg hx]

/-- The map leaves the column with each entry under its new key, and nothing else changed. -/
def KeysRenamed (env : Env) (parent : Results) (data : Dataset) (name : String) (m : MapDef)
    (c : Column) : Prop :=
  ∃ c', processDataset env parent name data m = .same (.dataset (AList.insert name c' data))
    ∧ Dict.Same c' (c.renamed (newKey env m))

/-- A loop over a column that cannot raise. -/
theorem forItems_ok (step : Column → Value → Value → Column) (c : Column) :
    forItems env (fun c k v => .ok (step c k v)) c
      = .ok ((env.order.order c.items).foldl (fun c p => step c p.1 p.2) c) := by
  unfold forItems
  generalize env.order.order c.items = l
  induction l generalizing c with
  | nil => rfl
  | cons p l ih => exact ih (step c p.1 p.2)

theorem onColumn_of_lookup {data : Dataset} {name : String} {c : Column}
    (hc : data.lookup name = some c) (step : Column → Value → Value → Column) :
    Call.inPlace data (onColumn data name (forItems env (fun c k v => .ok (step c k v))))
      = .same (.dataset (AList.insert name
        ((env.order.order c.items).foldl (fun c p => step c p.1 p.2) c) data)) := by
  unfold onColumn
  rw [hc]
  dsimp only
  rw [forItems_ok]
  rfl

/-- **Renaming the keys of a column**: each entry is under its new key in the end exactly where no
entry is moved to the old key of one that is met later. -/
theorem keysRenamed_iff {parent : Results} {data : Dataset} {name : String} {m : MapDef}
    {c : Column} (hm : RenamesKeys env m) (hc : data.lookup name = some c)
    (hnew : Set.InjOn (newKey env m) {k | k ∈ c}) :
    KeysRenamed env parent data name m c
      ↔ (env.order.order c.items).Pairwise (fun p q => newKey env m p.1 ≠ q.1) := by
  obtain ⟨step, hstep, hmap⟩ : ∃ step, Moves (newKey env m) step
      ∧ processDataset env parent name data m = .same (.dataset (AList.insert name
        ((env.order.order c.items).foldl (fun c p => step c p.1 p.2) c) data)) := by
    cases m with
    | regexp y pattern =>
      refine ⟨_, moves_regexp hm, ?_⟩
      rw [processDataset, _process_by_regexp, if_pos hm.1]
      exact onColumn_of_lookup hc _
    | function y func =>
      refine ⟨_, moves_callOnKey y func, ?_⟩
      obtain rfl : y = "key" := hm
      rw [processDataset, _process_by_function, if_pos rfl]
      exact onColumn_of_lookup hc _
    | _ => exact hm.elim
  rw [← same_renamed_iff hstep hnew (env.order.perm c.items)]
  constructor
  · rintro ⟨c', hc', hsame⟩
    have hcol := congrArg Call.given (hmap.symm.trans hc')
    have hlook := congrArg (fun d => d.lookup name) (Data.dataset.inj hcol)
    beta_reduce at hlook
    rw [AList.lookup_insert, AList.lookup_insert] at hlook
    rw [Option.some.inj hlook]
    exact hsame
  · exact fun hsame => ⟨_, hmap, hsame⟩

/-! Indexes that lose their first number. -/

/-- What follows the first point of a text is the key. -/
def tailEnv : Env :=
  { bareEnv with
    match? := fun _ v => match v with
      | .str s => if '.' ∈ s.toList then
          .ok (some (Dict.ofList [("key", .str (Text.partition '.' s).2.2)]))
        else .ok none
      | _ => .ok none }

def tailMap : MapDef := .regexp "key" "^\\d+\\.(?P<key>.+)$"

/-- The index of the first entry becomes that of the second one. -/
def indexColumn : Column :=
  Dict.ofList [(.str "2.3", .str "down"), (.str "1.2.3", .str "up")]

def indexData : Dataset := Dict.ofList [("status", indexColumn)]

theorem renamesKeys_tailMap : RenamesKeys tailEnv tailMap := by
  refine ⟨rfl, fun k d hd _ => ?_⟩
  cases k with
  | str s =>
    have hmatch : (if '.' ∈ s.toList then
        Except.ok (some (Dict.ofList [("key", Value.str (Text.partition '.' s).2.2)]))
        else .ok none : Except String (Option (Dict String Value))) = .ok (some d) := hd
    split_ifs at hmatch
    · rw [← Option.some.inj (Except.ok.inj hmatch)]
      exact Dict.mem_iff_lookup.mpr ⟨_, AList.lookup_insert _⟩
    · cases hmatch
  | _ => cases hd

/-- Both indexes are of two numbers. -/
def vlanColumn : Column :=
  Dict.ofList [(.str "1.10", .str "up"), (.str "1.20", .str "down")]

theorem keysRenamed_iff_vlan :
    KeysRenamed tailEnv ∅ (Dict.ofList [("status", vlanColumn)]) "status" tailMap vlanColumn := by
  have hkeys : ∀ a ∈ vlanColumn.keys, ∀ b ∈ vlanColumn.keys,
      newKey tailEnv tailMap a = newKey tailEnv tailMap b → a = b := by
    decide
  exact (keysRenamed_iff renamesKeys_tailMap (by rfl)
    (fun a ha b hb hab => hkeys a (AList.mem_keys.mp ha) b (AList.mem_keys.mp hb) hab)).mpr
    (by decide)

/-- The first entry is lost where the second one is moved after it. -/
theorem not_keysRenamed_index :
    ¬ KeysRenamed tailEnv ∅ indexData "status" tailMap indexColumn := by
  rintro ⟨c', hc', hsame⟩
  have hleft : processDataset tailEnv ∅ "status" indexData tailMap
      = .same (.dataset (Dict.ofList [("status", Dict.ofList [(.str "3", .str "down")])])) := by
    rfl
  have hcol := congrArg Call.given (hleft.symm.trans hc')
  have hlook := congrArg (fun d => d.lookup "status") (Data.dataset.inj hcol)
  beta_reduce at hlook
  rw [AList.lookup_insert] at hlook
  have hnone : c'.lookup (.str "2.3") = none := by
    rw [← Option.some.inj hlook]
    decide
  have hsome : (indexColumn.renamed (newKey tailEnv tailMap)).lookup (.str "2.3")
      = some (.str "up") := by
    decide
  rw [← hsame, hnone] at hsome
  cases hsome

end DriverMaps
