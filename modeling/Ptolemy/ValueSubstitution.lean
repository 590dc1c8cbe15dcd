/-
# Substituting values by a dictionary

`value_sub` by a dictionary looks a value up as it is, as a number where its text is one;
failing that, every key of the dictionary is searched for in its text, in the order in which
the dictionary is gone through: integers and `other` too.

* `Possible`      : the results for a value over all orders, from the dictionary alone;
* `Substituted`   : what a substitution ought to give;
* `Settled`       : the condition on the dictionary and the value under which it does.
-/
import Ptolemy.DriverColumns

/-- The order that starts at the place `n` of the stored one. -/
def IterOrder.rotated (n : Nat) : IterOrder :=
  ⟨fun l => l.rotate n, fun l => List.rotate_perm l n⟩

/-- Every entry is met first in some order. -/
theorem IterOrder.exists_first {α : Type} {l : List α} {a : α} (ha : a ∈ l) :
    ∃ (o : IterOrder) (l' : List α), o.order l = a :: l' := by
  obtain ⟨s, t, rfl⟩ := List.append_of_mem ha
  exact ⟨IterOrder.rotated s.length, t ++ s, List.rotate_append_length_eq s (a :: t)⟩

namespace DriverMaps

open Driver (valueEq)

variable {env : Env}

/-! ## The results for a value -/

/-- The same regular expressions and functions, with another iteration order. -/
def Env.ordered (env : Env) (o : IterOrder) : Env := { env with order := o }

/-- The search for a key in the text of a value ends the search: it is found, or it raises. -/
def decides (env : Env) (v k : Value) : Bool :=
  match env.search k.toText v.toText with
  | .ok false => false
  | _ => true

/-- What an entry makes of a value where its key ends the search. -/
def outcome (env : Env) (v : Value) (p : Value × Value) : Except Exn Value :=
  match env.search p.1.toText v.toText with
  | .error e => .error (.exception e)
  | .ok _ => .ok p.2

/-- What is left for a value that no key decides. -/
def otherwise (mapping : Dict Value Value) (v : Value) : Value :=
  (mapping.lookup (.str "other")).getD v

/-- The results for a value. -/
def Possible (env : Env) (mapping : Dict Value Value) (v : Value) (r : Except Exn Value) : Prop :=
  match mapped mapping (.ofText v.toText) with
  | some w => r = .ok w
  | none => (∃ p ∈ mapping.items, decides env v p.1 = true ∧ r = outcome env v p)
      ∨ ((∀ p ∈ mapping.items, decides env v p.1 = false) ∧ r = .ok (otherwise mapping v))

theorem firstFound_eq (v : Value) (l : List (Value × Value)) :
    firstFound env v.toText l = match l.find? (fun p => decides env v p.1) with
      | none => .ok none
      | some p => (outcome env v p).map some := by
  induction l with
  | nil => rfl
  | cons p l ih =>
    unfold firstFound
    rw [List.find?_cons]
    cases hsearch : env.search p.1.toText v.toText with
    | error e => simp only [decides, outcome, hsearch, Except.map]
    | ok found =>
      cases found with
      | true => simp only [decides, outcome, hsearch, Except.map]
      | false =>
        simp only [decides, hsearch]
        exact ih

/-- The result in one order: the first entry that decides. -/
theorem substitute_ordered (o : IterOrder) (mapping : Dict Value Value) (v : Value) :
    substitute (env.ordered o) mapping v = match mapped mapping (.ofText v.toText) with
      | some w => .ok w
      | none => match (o.order mapping.items).find? (fun p => decides env v p.1) with
        | none => .ok (otherwise mapping v)
        | some p => outcome env v p := by
  unfold substitute
  cases mapped mapping (.ofText v.toText) with
  | some w => rfl
  | none =>
    have hfirst : firstFound (env.ordered o) v.toText ((env.ordered o).order.order mapping.items)
        = match (o.order mapping.items).find? (fun p => decides env v p.1) with
          | none => .ok none
          | some p => (outcome env v p).map some := firstFound_eq v _
    dsimp only
    rw [hfirst]
    cases (o.order mapping.items).find? (fun p => decides env v p.1) with
    | none => rfl
    | some p =>
      dsimp only
      cases outcome env v p <;> rfl

/-- **The results for a value over all orders.** -/
theorem exists_substitute_iff {mapping : Dict Value Value} {v : Value} {r : Except Exn Value} :
    (∃ o, substitute (env.ordered o) mapping v = r) ↔ Possible env mapping v r := by
  unfold Possible
  cases hmapped : mapped mapping (.ofText v.toText) with
  | some w =>
    have hall : ∀ o, substitute (env.ordered o) mapping v = .ok w := by
      intro o
      rw [substitute_ordered, hmapped]
    exact ⟨fun ⟨o, ho⟩ => ho.symm.trans (hall o), fun hr => ⟨.stored, (hall _).trans hr.symm⟩⟩
  | none =>
    have hall : ∀ o, substitute (env.ordered o) mapping v
        = match (o.order mapping.items).find? (fun p => decides env v p.1) with
          | none => .ok (otherwise mapping v)
          | some p => outcome env v p := by
      intro o
      rw [substitute_ordered, hmapped]
    constructor
    · rintro ⟨o, ho⟩
      rw [hall] at ho
      cases hfind : (o.order mapping.items).find? (fun p => decides env v p.1) with
      | none =>
        rw [hfind] at ho
        refine Or.inr ⟨fun p hp => ?_, ho.symm⟩
        exact Bool.eq_false_iff.mpr (List.find?_eq_none.mp hfind p (o.mem_order.mpr hp))
      | some p =>
        rw [hfind] at ho
        have hmem := o.mem_order.mp (List.mem_of_find?_eq_some hfind)
        exact Or.inl ⟨p, hmem, by simpa using List.find?_some hfind, ho.symm⟩
    · rintro (⟨p, hp, hdecides, rfl⟩ | ⟨hnone, rfl⟩)
      · -- an order that starts with the entry
        obtain ⟨o, l', ho⟩ := IterOrder.exists_first hp
        refine ⟨o, ?_⟩
        rw [hall, ho, List.find?_cons, hdecides]
      · refine ⟨.stored, ?_⟩
        have hfind : (IterOrder.stored.order mapping.items).find? (fun p => decides env v p.1)
            = none := by
          rw [List.find?_eq_none]
          intro p hp
          rw [hnone p hp]
          exact Bool.false_ne_true
        rw [hall, hfind]

theorem possible_substitute (o : IterOrder) (mapping : Dict Value Value) (v : Value) :
    Possible env mapping v (substitute (env.ordered o) mapping v) :=
  exists_substitute_iff.mp ⟨o, rfl⟩

/-! ## What a substitution ought to give -/

/-- An entry that applies to a value: its key is equal to it, as it is or as a number, or is a
pattern, neither an integer nor `other`, which is found in its text. -/
def Applies (env : Env) (v k : Value) : Prop :=
  valueEq k v = true ∨ valueEq k (.ofText v.toText) = true
    ∨ (∀ n, k ≠ .int n) ∧ k ≠ .str "other" ∧ env.search k.toText v.toText = .ok true

/-- A value that is a key gets the image of the key; every other one that of an entry that
applies, or that of `other` (or stays) where none does. -/
structure Prescribed (env : Env) (mapping : Dict Value Value) (v : Value)
    (r : Except Exn Value) : Prop where
  image : ∀ p ∈ mapping.items, valueEq p.1 v = true → r = .ok p.2
  applied : ∀ w, r = .ok w → (∃ p ∈ mapping.items, p.2 = w ∧ Applies env v p.1)
    ∨ (∀ p ∈ mapping.items, ¬ Applies env v p.1) ∧ w = otherwise mapping v

/-- The result for a value is the one prescribed, and the same in every order. -/
def Substituted (env : Env) (mapping : Dict Value Value) (v : Value) : Prop :=
  (∀ o o', substitute (env.ordered o) mapping v = substitute (env.ordered o') mapping v)
    ∧ ∀ o, Prescribed env mapping v (substitute (env.ordered o) mapping v)

/-- The condition.  For a value that is looked up as it is: every key equal to it has that image.
For any other one: the keys that decide agree; what they decide, or what is left where none does,
is the image of every key equal to it; and integers and `other` are found along with an entry
that applies only, or have the image that is left. -/
def Settled (env : Env) (mapping : Dict Value Value) (v : Value) : Prop :=
  match mapped mapping (.ofText v.toText) with
  | some w => ∀ p ∈ mapping.items, valueEq p.1 v = true → p.2 = w
  | none =>
      (∀ p ∈ mapping.items, ∀ q ∈ mapping.items, decides env v p.1 = true →
        decides env v q.1 = true → outcome env v p = outcome env v q)
      ∧ (∀ p ∈ mapping.items, valueEq p.1 v = true →
        (∀ q ∈ mapping.items, decides env v q.1 = true → outcome env v q = .ok p.2)
        ∧ ((∀ q ∈ mapping.items, decides env v q.1 = false) → p.2 = otherwise mapping v))
      ∧ ∀ p ∈ mapping.items, env.search p.1.toText v.toText = .ok true →
        (∃ q ∈ mapping.items, Applies env v q.1) ∨ p.2 = otherwise mapping v

theorem mapped_eq_some {mapping : Dict Value Value} {v w : Value} (h : mapped mapping v = some w) :
    ∃ p ∈ mapping.items, p.2 = w ∧ valueEq p.1 v = true := by
  obtain ⟨p, hfind, rfl⟩ := Option.map_eq_some_iff.mp h
  exact ⟨p, List.mem_of_find?_eq_some hfind, rfl, by simpa using List.find?_some hfind⟩

theorem mapped_eq_none {mapping : Dict Value Value} {v : Value} (h : mapped mapping v = none) :
    ∀ p ∈ mapping.items, ¬ valueEq p.1 v = true :=
  List.find?_eq_none.mp (Option.map_eq_none_iff.mp h)

section settled

variable {mapping : Dict Value Value} {v : Value}

/-- A key that is found ends the search with its image. -/
theorem decides_of_found {p : Value × Value}
    (h : env.search p.1.toText v.toText = .ok true) :
    decides env v p.1 = true ∧ outcome env v p = .ok p.2 := by
  constructor
  · simp only [decides, h]
  · simp only [outcome, h]

theorem found_of_outcome {p : Value × Value} {w : Value} (hdecides : decides env v p.1 = true)
    (h : outcome env v p = .ok w) : env.search p.1.toText v.toText = .ok true ∧ p.2 = w := by
  unfold outcome at h
  unfold decides at hdecides
  cases hsearch : env.search p.1.toText v.toText with
  | error e =>
    rw [hsearch] at h
    cases h
  | ok found =>
    rw [hsearch] at h hdecides
    cases found with
    | true => exact ⟨rfl, Except.ok.inj h⟩
    | false => cases hdecides

/-- The result that `r` is for a value that is not looked up as it is has the image of each entry
that applies. -/
theorem image_of_applies (hnone : mapped mapping (.ofText v.toText) = none) {r : Except Exn Value}
    (hequal : ∀ p ∈ mapping.items, valueEq p.1 v = true → r = .ok p.2)
    (hfound : ∀ p ∈ mapping.items, env.search p.1.toText v.toText = .ok true → r = .ok p.2)
    {p : Value × Value} (hp : p ∈ mapping.items) (happlies : Applies env v p.1) : r = .ok p.2 := by
  rcases happlies with heq | heq | ⟨-, -, hsearch⟩
  · exact hequal p hp heq
  · exact absurd heq (mapped_eq_none hnone p hp)
  · exact hfound p hp hsearch

/-- A result is prescribed where it has the image of each entry that applies, and else is what is
left. -/
theorem prescribed_of_image {r : Except Exn Value}
    (hequal : ∀ p ∈ mapping.items, valueEq p.1 v = true → r = .ok p.2)
    (himage : ∀ p ∈ mapping.items, Applies env v p.1 → r = .ok p.2)
    (hleft : ∀ w, r = .ok w → (∃ p ∈ mapping.items, Applies env v p.1) ∨ w = otherwise mapping v) :
    Prescribed env mapping v r := by
  refine ⟨hequal, fun w hw => ?_⟩
  by_cases hany : ∃ p ∈ mapping.items, Applies env v p.1
  · obtain ⟨p, hp, happlies⟩ := hany
    have hp2 : w = p.2 := Except.ok.inj (hw.symm.trans (himage p hp happlies))
    exact Or.inl ⟨p, hp, hp2.symm, happlies⟩
  · have hnot : ∀ p ∈ mapping.items, ¬ Applies env v p.1 :=
      fun p hp happlies => hany ⟨p, hp, happlies⟩
    exact Or.inr ⟨hnot, (hleft w hw).resolve_left hany⟩

/-- **When a value is substituted as it ought to be.** -/
theorem substituted_iff_settled : Substituted env mapping v ↔ Settled env mapping v := by
  have hrules : Substituted env mapping v
      ↔ (∀ r r', Possible env mapping v r → Possible env mapping v r' → r = r')
        ∧ ∀ r, Possible env mapping v r → Prescribed env mapping v r := by
    constructor
    · rintro ⟨hsame, hprescribed⟩
      constructor
      · intro r r' hr hr'
        obtain ⟨o, rfl⟩ := exists_substitute_iff.mpr hr
        obtain ⟨o', rfl⟩ := exists_substitute_iff.mpr hr'
        exact hsame o o'
      · intro r hr
        obtain ⟨o, rfl⟩ := exists_substitute_iff.mpr hr
        exact hprescribed o
    · rintro ⟨hsame, hprescribed⟩
      exact ⟨fun o o' => hsame _ _ (possible_substitute o mapping v)
          (possible_substitute o' mapping v),
        fun o => hprescribed _ (possible_substitute o mapping v)⟩
  rw [hrules]
  unfold Possible Settled
  cases hmapped : mapped mapping (.ofText v.toText) with
  | some w =>
    dsimp only
    constructor
    · rintro ⟨-, hprescribed⟩ p hp heq
      exact (Except.ok.inj ((hprescribed _ rfl).image p hp heq)).symm
    · intro hall
      refine ⟨fun r r' hr hr' => hr.trans hr'.symm, ?_⟩
      rintro r rfl
      obtain ⟨p, hp, hpw, heq⟩ := mapped_eq_some hmapped
      refine ⟨fun q hq hqv => by rw [hall q hq hqv], fun w' hw' => Or.inl ⟨p, hp, ?_, ?_⟩⟩
      · rw [hpw]
        exact Except.ok.inj hw'
      · exact Or.inr (Or.inl heq)
  | none =>
    dsimp only
    constructor
    · rintro ⟨hsame, hprescribed⟩
      refine ⟨fun p hp q hq hpd hqd => ?_, fun p hp heq => ⟨fun q hq hqd => ?_, fun hnot => ?_⟩,
        fun p hp hsearch => ?_⟩
      · exact hsame _ _ (Or.inl ⟨p, hp, hpd, rfl⟩) (Or.inl ⟨q, hq, hqd, rfl⟩)
      · exact (hprescribed _ (Or.inl ⟨q, hq, hqd, rfl⟩)).image p hp heq
      · exact (Except.ok.inj ((hprescribed _ (Or.inr ⟨hnot, rfl⟩)).image p hp heq)).symm
      · obtain ⟨hdecides, houtcome⟩ := decides_of_found hsearch
        have happlied := (hprescribed _ (Or.inl ⟨p, hp, hdecides, rfl⟩)).applied p.2 houtcome
        rcases happlied with ⟨q, hq, -, happlies⟩ | ⟨-, hleft⟩
        · exact Or.inl ⟨q, hq, happlies⟩
        · exact Or.inr hleft
    · rintro ⟨hagree, hequal, hfound⟩
      constructor
      · rintro r r' (⟨p, hp, hpd, rfl⟩ | ⟨hnot, rfl⟩) (⟨q, hq, hqd, rfl⟩ | ⟨hnot', rfl⟩)
        · exact hagree p hp q hq hpd hqd
        · exact absurd (hpd.symm.trans (hnot' p hp)) (by decide)
        · exact absurd (hqd.symm.trans (hnot q hq)) (by decide)
        · rfl
      · rintro r (⟨p, hp, hpd, rfl⟩ | ⟨hnot, rfl⟩)
        · -- an entry decides: every entry that applies has its outcome
          have hequal' : ∀ q ∈ mapping.items, valueEq q.1 v = true → outcome env v p = .ok q.2 :=
            fun q hq heq => (hequal q hq heq).1 p hp hpd
          refine prescribed_of_image hequal' (fun q hq => ?_) (fun w hw => ?_)
          · refine image_of_applies hmapped hequal' (fun q' hq' hsearch => ?_) hq
            obtain ⟨hqd, hqout⟩ := decides_of_found hsearch
            rw [hagree p hp q' hq' hpd hqd, hqout]
          · obtain ⟨hsearch, rfl⟩ := found_of_outcome hpd hw
            exact hfound p hp hsearch
        · have hequal' : ∀ q ∈ mapping.items, valueEq q.1 v = true →
              (Except.ok (otherwise mapping v) : Except Exn Value) = .ok q.2 := by
            intro q hq heq
            rw [(hequal q hq heq).2 hnot]
          refine prescribed_of_image hequal' (fun q hq => ?_) (fun w hw => ?_)
          · refine image_of_applies hmapped hequal' (fun q' hq' hsearch => ?_) hq
            have hqd := (decides_of_found hsearch).1
            exact absurd (hqd.symm.trans (hnot q' hq')) (by decide)
          · exact Or.inr (Except.ok.inj hw).symm

end settled

/-! ## Columns -/

/-- The map makes each value of the column what the substitution makes of it, or raises what the
substitution of one of them raises. -/
theorem valueSub_outcome {parent : Results} {data : Dataset} {name : String} {c : Column}
    (hc : data.lookup name = some c) (mapping : Dict Value Value) :
    Outcome (fun d => ∃ c', d.lookup name = some c'
        ∧ Image (fun _ v => (substitute env mapping v).map some) c c')
      (fun e _ => ∃ k v, c.lookup k = some v ∧ substitute env mapping v = .error e)
      (processDataset env parent name data (.value_sub (.dict mapping))) := by
  show Outcome _ _ (.inPlace data (onColumn data name (forItems env (fun c k v =>
    (substitute env mapping v).map (fun w => AList.insert k w c)))))
  unfold onColumn
  simp only [hc]
  cases hloop : forItems env (fun c k v =>
      (substitute env mapping v).map (fun w => AList.insert k w c)) c with
  | ok c' =>
    exact .ok ⟨c', AList.lookup_insert _, forItems_image (pointwise_substitute mapping) hloop⟩
  | error e =>
    obtain ⟨c', p, hp, herror⟩ := exists_of_foldlM_error hloop
    refine .error ⟨p.1, p.2, Dict.mem_items.mp (env.order.mem_order.mp hp), ?_⟩
    beta_reduce at herror
    cases hw : substitute env mapping p.2 with
    | ok w =>
      rw [hw] at herror
      cases herror
    | error e' =>
      rw [hw] at herror
      cases herror
      rfl

/-- **Substituting a column**: in every order the map does what the substitution does with each
value, and this is what it ought to be for all values exactly where all of them are settled. -/
theorem valueSub_iff {parent : Results} {data : Dataset} {name : String} {c : Column}
    (hc : data.lookup name = some c) (mapping : Dict Value Value) :
    (∀ o, Outcome (fun d => ∃ c', d.lookup name = some c'
          ∧ Image (fun _ v => (substitute (env.ordered o) mapping v).map some) c c')
        (fun e _ => ∃ k v, c.lookup k = some v
          ∧ substitute (env.ordered o) mapping v = .error e)
        (processDataset (env.ordered o) parent name data (.value_sub (.dict mapping))))
      ∧ ((∀ k v, c.lookup k = some v → Substituted env mapping v)
        ↔ ∀ k v, c.lookup k = some v → Settled env mapping v) := by
  refine ⟨fun o => valueSub_outcome hc mapping, ?_⟩
  constructor
  · exact fun h k v hk => substituted_iff_settled.mp (h k v hk)
  · exact fun h k v hk => substituted_iff_settled.mpr (h k v hk)

/-! The speeds of ports by a number. -/

/-- A pattern of letters and digits is found where it is part of the text. -/
def partEnv : Env :=
  { bareEnv with search := fun pattern text => .ok (decide (pattern.toList <:+: text.toList)) }

def duplexMapping : Dict Value Value := Dict.ofList [(.int 1, .str "full"), (.int 2, .str "half")]

def duplexColumn : Column := Dict.ofList [(.str "a", .int 1), (.str "b", .int 31)]

/-- Without the number that is no key. -/
def settledColumn : Column := Dict.ofList [(.str "a", .int 1), (.str "b", .int 2)]

theorem valueSub_iff_settled :
    (∀ o, Outcome (fun d => ∃ c', d.lookup "duplex" = some c'
          ∧ Image (fun _ v => (substitute (partEnv.ordered o) duplexMapping v).map some)
            settledColumn c')
        (fun e _ => ∃ k v, settledColumn.lookup k = some v
          ∧ substitute (partEnv.ordered o) duplexMapping v = .error e)
        (processDataset (partEnv.ordered o) ∅ "duplex" (Dict.ofList [("duplex", settledColumn)])
          (.value_sub (.dict duplexMapping))))
      ∧ ∀ k v, settledColumn.lookup k = some v → Substituted partEnv duplexMapping v := by
  have hsettled : ∀ p ∈ settledColumn.items, Settled partEnv duplexMapping p.2 := by
    have hvalues : ∀ p ∈ settledColumn.items, p.2 = .int 1 ∨ p.2 = .int 2 := by decide
    have hfull : ∀ q ∈ duplexMapping.items, valueEq q.1 (.int 1) = true → q.2 = .str "full" := by
      decide
    have hhalf : ∀ q ∈ duplexMapping.items, valueEq q.1 (.int 2) = true → q.2 = .str "half" := by
      decide
    intro p hp
    rcases hvalues p hp with h | h
    · rw [h]
      exact hfull
    · rw [h]
      exact hhalf
  exact (valueSub_iff (by rfl) duplexMapping).imp_right
    (fun hiff => hiff.mpr (fun k v hk => hsettled (k, v) (Dict.mem_items.mpr hk)))

/-- The number 31 is no key, and has the digit 1. -/
theorem not_substituted_duplex :
    ¬ ∀ k v, duplexColumn.lookup k = some v → Substituted partEnv duplexMapping v := by
  intro h
  have hresult : substitute (partEnv.ordered .stored) duplexMapping (.int 31)
      = .ok (.str "full") := by
    decide
  rcases (h (.str "b") (.int 31) (by decide)).2 .stored |>.applied _ hresult with
    ⟨p, hp, -, heq | heq | ⟨hint, -⟩⟩ | ⟨-, hleft⟩
  · have hnone : ∀ p ∈ duplexMapping.items, valueEq p.1 (.int 31) = false := by decide
    exact absurd (heq.symm.trans (hnone p hp)) (by decide)
  · have hnone : ∀ p ∈ duplexMapping.items,
        valueEq p.1 (.ofText (Value.int 31).toText) = false := by decide
    exact absurd (heq.symm.trans (hnone p hp)) (by decide)
  · have hkeys : ∀ p ∈ duplexMapping.items, p.1 = .int 1 ∨ p.1 = .int 2 := by decide
    rcases hkeys p hp with hk | hk
    · exact hint 1 hk
    · exact hint 2 hk
  · exact absurd hleft (by decide)

end DriverMaps
