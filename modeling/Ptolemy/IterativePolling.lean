/-
# Polling by iteration

Some tables can be read only one part at a time, under a community that names the part.
After the groups of a driver, `_fetch` polls its iterative groups once for each value of a
variable, with the community `base@value`, and puts what it gets beside the groups under
names that carry the value.

A value whose poll fails is passed over, with two exceptions: a timeout ends the whole poll,
and so does a reference that is not found when it was not found for all values.  A poll
without anything for any value fails as well.
-/
import Ptolemy.PollDrivers
import Ptolemy.AgentOptions

namespace Poll

/-! ## The iteration -/

/-- What collecting and processing raise. -/
inductive Raised : Type where
  | agentTimeout (msg : String)
  | timedOut (msg : String)
  | other (e : Exn)

/-- `str(e)`. -/
def textOf : Exn → String
  | .assertionError msg => msg
  | .attributeError msg => msg
  | .keyError key => Yaml.reprStr key
  | .typeError msg => msg
  | .valueError msg => msg
  | .syntaxError msg => msg
  | .userWarning msg => msg
  | .notImplemented msg => msg
  | .refNotFound msg => msg
  | .exception msg => msg

def Raised.text : Raised → String
  | .agentTimeout msg => msg
  | .timedOut msg => msg
  | .other e => textOf e

/-- The groups that were collected and processed for one value, or what was raised. -/
abbrev Outcome : Type := Except Raised (Dict String Items)

/-- The loop between two values: the results, and how many references were not found. -/
structure Iterated : Type where
  iterRes : Dict Value (Dict String Items) := ∅
  failed : ℕ := 0

def iterativeFailed : Raised := .other (.refNotFound "iterative polling failed")

def nothingPolled : Raised := .other (.exception "iterative groups polling failed")

/-- The loop over the values, of which there are `total`. -/
def iterate (total : ℕ) : List (Value × Outcome) → Iterated → Except Raised Iterated
  | [], s => .ok s
  | (val, .ok groups) :: l, s =>
      iterate total l { s with iterRes := AList.insert val groups s.iterRes }
  | (_, .error (.timedOut msg)) :: _, _ => .error (.timedOut msg)
  | (_, .error (.other (.refNotFound _))) :: l, s =>
      if s.failed + 1 = total then .error iterativeFailed
      else iterate total l { s with failed := s.failed + 1 }
  | (_, .error _) :: l, s => iterate total l s

/-- The iterative groups of all values. -/
def iterRes (l : List (Value × Outcome)) : Except Raised (Dict Value (Dict String Items)) := do
  let s ← iterate l.length l {}
  if s.iterRes.keys.isEmpty then .error nothingPolled else .ok s.iterRes

/-! ## `_fetch` -/

section fetch

/-- What the poll rests on: each collecting and processing, with its number, the groups that it is
for and the options, and the values of the variable. -/
structure Source : Type where
  gather : ℕ → String → Dict String Yaml → Outcome
  var : String
  values : Dict String Items → Except Raised (List Value)

variable (env : Driver.Env) (drv : PollDriver) (src : Source)

/-- The poll of one value, the `k`-th one after the groups. -/
def outcome (opts : Dict String Yaml) (base : Yaml) (k : ℕ) (val : Value) : Outcome :=
  match base with
  | .str base => src.gather (k + 1) "iterative_groups"
      (AList.insert "snmp_community" (.str (base ++ "@" ++ val.toText)) opts)
  | _ => .error (.other (.typeError "unsupported operand type(s) for +"))

/-- The polls of all values. -/
def outcomes (opts : Dict String Yaml) (base : Yaml) (vals : List Value) :
    List (Value × Outcome) :=
  vals.zipIdx.map (fun p => (p.1, outcome src opts base p.2 p.1))

/-- What is collected for the groups and for the iterative groups. -/
def collected (opts : Dict String Yaml) : Except Raised Collected :=
  match src.gather 0 "groups" opts with
  | .error r => .error r
  | .ok res =>
      if drv.iterativeGroups.keys.isEmpty then .ok { res := res }
      else
        match src.values res, opts.lookup "snmp_community" with
        | .error r, _ => .error r
        | .ok _, none => .error (.other (.keyError "snmp_community"))
        | .ok vals, some base =>
            match iterRes (outcomes src opts base vals) with
            | .error r => .error r
            | .ok iterRes => .ok { res := res, var := src.var, iterRes := iterRes }

/-- What `_fetch` makes of an exception, by its text. -/
def settle (r : Raised) : PollExn :=
  if r.text = "snmp_sess_synch_response (2): Unknown Error" then .timedOut
  else if r.text = "" then .nameResolution
  else
    match r with
    | .timedOut _ => .timedOut
    | .agentTimeout msg => .other (.exception msg)
    | .other e => .other e

/-- `_fetch`. -/
def fetchAll (opts : Dict String Yaml) : Except PollExn Named :=
  match collected drv src opts with
  | .error r => .error (settle r)
  | .ok c => .ok (_fetch env drv c)

end fetch

/-! ## How the iteration ends -/

def IsTimedOut (r : Outcome) : Prop := ∃ msg, r = .error (.timedOut msg)

def IsRefNotFound (r : Outcome) : Prop := ∃ msg, r = .error (.other (.refNotFound msg))

/-- The groups of the values whose poll succeeds. -/
def succeeded (l : List (Value × Outcome)) : List (Value × Dict String Items) :=
  l.filterMap (fun p => p.2.toOption.map (fun groups => (p.1, groups)))

/-- The number of polls in which a reference is not found. -/
def refsNotFound : List (Value × Outcome) → ℕ
  | [] => 0
  | (_, .error (.other (.refNotFound _))) :: l => refsNotFound l + 1
  | _ :: l => refsNotFound l

/-- The first timeout. -/
def firstTimedOut (l : List (Value × Outcome)) : Option Raised :=
  l.findSome? (fun p =>
    match p.2 with
    | .error (.timedOut msg) => some (.timedOut msg)
    | _ => none)

/-- Where not all references are missing, the loop runs to the first timeout or to the end. -/
theorem iterate_eq {total : ℕ} {l : List (Value × Outcome)} {s : Iterated}
    (h : s.failed + refsNotFound l < total) :
    iterate total l s =
      match firstTimedOut l with
      | some r => .error r
      | none => .ok ⟨(succeeded l).foldl (fun d p => AList.insert p.1 p.2 d) s.iterRes,
          s.failed + refsNotFound l⟩ := by
  fun_induction iterate total l s with
  | case1 s => rfl
  | case2 val groups l s ih =>
    have hl := ih (by simpa only [refsNotFound] using h)
    simpa [firstTimedOut, succeeded, refsNotFound, Except.toOption] using hl
  | case3 => rfl
  | case4 val msg l s htotal =>
    rw [refsNotFound] at h
    omega
  | case5 val msg l s htotal ih =>
    rw [refsNotFound] at h
    have hl := ih (by simp only; omega)
    simpa [firstTimedOut, succeeded, refsNotFound, Except.toOption, Nat.add_assoc,
      Nat.add_comm 1] using hl
  | case6 val r l s htimed href ih =>
    have hrefs : refsNotFound ((val, .error r) :: l) = refsNotFound l := by
      rw [refsNotFound]
      rintro val' msg heq
      exact href msg (by cases heq; rfl)
    rw [hrefs] at h ⊢
    have hl := ih h
    have hfirst : firstTimedOut ((val, .error r) :: l) = firstTimedOut l := by
      unfold firstTimedOut
      rw [List.findSome?_cons]
      split
      · rename_i r' hr'
        split at hr'
        · rename_i msg heq
          exact absurd (Except.error.inj heq) (htimed msg)
        · cases hr'
      · rfl
    rw [hfirst, hl]
    rfl

/-- Where all references are missing, the last of the polls ends the loop. -/
theorem iterate_refs {total : ℕ} {l : List (Value × Outcome)} {s : Iterated} (hne : l ≠ [])
    (hl : ∀ p ∈ l, IsRefNotFound p.2) (htotal : s.failed + l.length = total) :
    iterate total l s = .error iterativeFailed := by
  induction l generalizing s with
  | nil => exact absurd rfl hne
  | cons p l ih =>
    obtain ⟨val, r⟩ := p
    obtain ⟨msg, hr⟩ := hl _ List.mem_cons_self
    obtain rfl : r = .error (.other (.refNotFound msg)) := hr
    rw [iterate]
    split_ifs with hlast
    · rfl
    · rw [List.length_cons] at htotal
      refine ih (fun h => hlast ?_) (fun p hp => hl p (List.mem_cons_of_mem _ hp))
        (by simp only; omega)
      rw [h, List.length_nil] at htotal
      omega

theorem refsNotFound_lt {l : List (Value × Outcome)} (h : ¬ ∀ p ∈ l, IsRefNotFound p.2) :
    refsNotFound l < l.length := by
  have hle : ∀ l : List (Value × Outcome), refsNotFound l ≤ l.length := by
    intro l
    fun_induction refsNotFound l with
    | case1 => exact le_refl _
    | case2 val msg l ih => exact Nat.succ_le_succ ih
    | case3 p l hp ih => exact Nat.le_succ_of_le ih
  fun_induction refsNotFound l with
  | case1 => exact absurd (fun p hp => absurd hp List.not_mem_nil) h
  | case2 val msg l ih =>
    refine Nat.succ_lt_succ (ih (fun hall => h ?_))
    exact List.forall_mem_cons.mpr ⟨⟨msg, rfl⟩, hall⟩
  | case3 p l hp ih => exact Nat.lt_succ_of_le (hle l)

theorem firstTimedOut_eq_none {l : List (Value × Outcome)} :
    firstTimedOut l = none ↔ ∀ p ∈ l, ¬ IsTimedOut p.2 := by
  unfold firstTimedOut
  rw [List.findSome?_eq_none_iff]
  refine forall₂_congr (fun p _ => ?_)
  constructor
  · rintro h ⟨msg, hmsg⟩
    rw [hmsg] at h
    cases h
  · intro h
    split
    · exact absurd ⟨_, ‹_›⟩ h
    · rfl

theorem timedOut_of_firstTimedOut {l : List (Value × Outcome)} {r : Raised}
    (h : firstTimedOut l = some r) : ∃ msg, r = .timedOut msg := by
  obtain ⟨p, -, hp⟩ := List.exists_of_findSome?_eq_some h
  split at hp
  · cases hp
    exact ⟨_, rfl⟩
  · cases hp

theorem mem_succeeded {l : List (Value × Outcome)} {val : Value} {groups : Dict String Items} :
    (val, groups) ∈ succeeded l ↔ (val, .ok groups) ∈ l := by
  simp only [succeeded, List.mem_filterMap, Prod.exists, Option.map_eq_some_iff, Prod.mk.injEq]
  constructor
  · rintro ⟨val', r, hmem, groups', hr, rfl, rfl⟩
    cases r with
    | ok groups =>
      cases hr
      exact hmem
    | error e => cases hr
  · exact fun h => ⟨val, .ok groups, h, groups, rfl, rfl, rfl⟩

/-- Without a timeout, and where not all references are missing, the loop runs to the end. -/
theorem iterRes_of_lt {l : List (Value × Outcome)} (htimed : ∀ p ∈ l, ¬ IsTimedOut p.2)
    (hlt : refsNotFound l < l.length) :
    iterRes l = if (Dict.ofList (succeeded l)).keys.isEmpty then .error nothingPolled
      else .ok (Dict.ofList (succeeded l)) := by
  rw [iterRes, iterate_eq (by simpa using hlt), firstTimedOut_eq_none.mpr htimed]
  rfl

theorem not_forall_refNotFound {l : List (Value × Outcome)} {p : Value × Outcome} (hp : p ∈ l)
    (h : ∀ msg, p.2 ≠ .error (.other (.refNotFound msg))) : ¬ ∀ p ∈ l, IsRefNotFound p.2 := by
  intro hall
  obtain ⟨msg, hmsg⟩ := hall p hp
  exact h msg hmsg

/-- **The four ends** of the iteration: a timeout, the groups of the values whose poll succeeds, a
reference that is missing for all values, or nothing. -/
theorem iterRes_cases (l : List (Value × Outcome)) :
    ((∃ msg, iterRes l = .error (.timedOut msg)) ∧ ∃ p ∈ l, IsTimedOut p.2)
      ∨ (iterRes l = .ok (Dict.ofList (succeeded l)) ∧ (∀ p ∈ l, ¬ IsTimedOut p.2)
        ∧ ∃ p ∈ l, ∃ groups, p.2 = .ok groups)
      ∨ (iterRes l = .error iterativeFailed ∧ l ≠ [] ∧ ∀ p ∈ l, IsRefNotFound p.2)
      ∨ (iterRes l = .error nothingPolled ∧ ∀ p ∈ l, ¬ IsTimedOut p.2
        ∧ ∀ groups, p.2 ≠ .ok groups) := by
  by_cases htimed : ∀ p ∈ l, ¬ IsTimedOut p.2
  · by_cases hok : ∃ p ∈ l, ∃ groups, p.2 = .ok groups
    · obtain ⟨⟨val, r⟩, hp, groups, hr⟩ := hok
      obtain rfl : r = .ok groups := hr
      have hlt := refsNotFound_lt (not_forall_refNotFound hp (fun msg h => by cases h))
      have hmem : val ∈ Dict.ofList (succeeded l) := by
        rcases Dict.lookup_foldl_insert_cases (succeeded l) ∅ val with ⟨v, -, hlook⟩ | ⟨hnone, -⟩
        · exact Dict.mem_iff_lookup.mpr ⟨v, hlook⟩
        · exact absurd (mem_succeeded.mpr hp) (hnone groups)
      refine Or.inr (Or.inl ⟨?_, htimed, _, hp, groups, rfl⟩)
      rw [iterRes_of_lt htimed hlt, if_neg]
      intro hempty
      rw [AList.mem_keys, List.isEmpty_iff.mp hempty] at hmem
      exact absurd hmem List.not_mem_nil
    · have hnone : ∀ p ∈ l, ∀ groups, p.2 ≠ .ok groups :=
        fun p hp groups h => hok ⟨p, hp, groups, h⟩
      have hsucceeded : succeeded l = [] :=
        List.eq_nil_iff_forall_not_mem.mpr (fun q hq => hnone _ (mem_succeeded.mp hq) q.2 rfl)
      by_cases hrefs : l ≠ [] ∧ ∀ p ∈ l, IsRefNotFound p.2
      · refine Or.inr (Or.inr (Or.inl ⟨?_, hrefs⟩))
        rw [iterRes, iterate_refs hrefs.1 hrefs.2 (Nat.zero_add _)]
        rfl
      · refine Or.inr (Or.inr (Or.inr ⟨?_, fun p hp => ⟨htimed p hp, hnone p hp⟩⟩))
        by_cases hempty : l = []
        · subst hempty
          rfl
        · rw [iterRes_of_lt htimed (refsNotFound_lt (fun hall => hrefs ⟨hempty, hall⟩)), hsucceeded]
          rfl
  · obtain ⟨p, hp, hmsg⟩ : ∃ p ∈ l, IsTimedOut p.2 := by simpa using htimed
    have hlt := refsNotFound_lt (not_forall_refNotFound hp (fun msg' h => by
      obtain ⟨msg, hmsg⟩ := hmsg
      rw [hmsg] at h
      cases h))
    refine Or.inl ⟨?_, p, hp, hmsg⟩
    cases hfirst : firstTimedOut l with
    | none => exact absurd hmsg (firstTimedOut_eq_none.mp hfirst p hp)
    | some r =>
      obtain ⟨msg', rfl⟩ := timedOut_of_firstTimedOut hfirst
      refine ⟨msg', ?_⟩
      rw [iterRes, iterate_eq (by simpa using hlt), hfirst]
      rfl

theorem ends_of_error {ε α : Type} {r : Except ε α} {e : ε} (hr : r = .error e) {P : Prop}
    {Q : α → Prop} {R : ε → Prop} (hP : ¬ P) (hR : R e) :
    ((∃ a, r = .ok a) ↔ P) ∧ (∀ a, r = .ok a → Q a) ∧ ∀ e, r = .error e → R e := by
  subst hr
  refine ⟨iff_of_false ?_ hP, ?_, ?_⟩
  · rintro ⟨a, h⟩
    cases h
  · intro a h
    cases h
  · intro e' h
    cases h
    exact hR

theorem ends_of_ok {ε α : Type} {r : Except ε α} {a : α} (hr : r = .ok a) {P : Prop}
    {Q : α → Prop} {R : ε → Prop} (hP : P) (hQ : Q a) :
    ((∃ a, r = .ok a) ↔ P) ∧ (∀ a, r = .ok a → Q a) ∧ ∀ e, r = .error e → R e := by
  subst hr
  refine ⟨iff_of_true ⟨a, rfl⟩ hP, ?_, ?_⟩
  · intro a' h
    cases h
    exact hQ
  · intro e h
    cases h

/-! ## The names of the groups -/

section names

variable {env : Driver.Env} {drv : PollDriver}

/-- The iterative groups under their names. -/
def named (env : Driver.Env) (var : String) (iterRes : Dict Value (Dict String Items)) :
    List (String × Items) :=
  (env.order.order iterRes.items).flatMap (fun q =>
    (env.order.order q.2.items).filterMap (fun p =>
      if p.1 = "__with__" then none else some (iterName p.1 var q.1, p.2)))

theorem res_foldl_nameIterGroup (var : String) (val : Value) (ps : List (String × Items))
    (n : Named) : (ps.foldl (nameIterGroup drv var val) n).res
      = (ps.filterMap (fun p => if p.1 = "__with__" then none
          else some (iterName p.1 var val, p.2))).foldl
        (fun d p => AList.insert p.1 p.2 d) n.res := by
  induction ps generalizing n with
  | nil => rfl
  | cons p ps ih =>
    rw [List.foldl_cons, ih, List.filterMap_cons]
    unfold nameIterGroup
    split_ifs with hwith
    · rfl
    · rfl

/-- The groups that `_fetch` returns. -/
theorem res_fetch (c : Collected) : (_fetch env drv c).res
    = (named env c.var c.iterRes).foldl (fun d p => AList.insert p.1 p.2 d) c.res := by
  unfold _fetch named
  obtain ⟨-, -, hres⟩ := mem_foldl_nameGroup drv (env.order.order (c.res.items.map Prod.fst))
    { res := c.res } ""
  generalize (env.order.order (c.res.items.map Prod.fst)).foldl (nameGroup drv)
    { res := c.res } = n at hres ⊢
  have hres' : n.res = c.res := hres
  rw [← hres', List.foldl_flatMap]
  clear hres hres'
  generalize env.order.order c.iterRes.items = l
  induction l generalizing n with
  | nil => rfl
  | cons q l ih => rw [List.foldl_cons, ih, List.foldl_cons, res_foldl_nameIterGroup]

theorem partition_iterName {g : String} (hg : '@' ∉ g.toList) (var : String) (val : Value) :
    Text.partition '@' (iterName g var val) = (g, true, var ++ "=" ++ val.toText) :=
  Text.partition_of_toList (by simp [iterName]) hg

theorem mem_named {var : String} {iterRes : Dict Value (Dict String Items)} {g : String}
    {items : Items} : (g, items) ∈ named env var iterRes ↔ ∃ val groups g',
      iterRes.lookup val = some groups ∧ groups.lookup g' = some items ∧ g' ≠ "__with__"
        ∧ g = iterName g' var val := by
  simp only [named, List.mem_flatMap, List.mem_filterMap, env.order.mem_order, Prod.exists,
    Dict.mem_items, Option.ite_none_left_eq_some, Option.some.injEq, Prod.mk.injEq]
  constructor
  · rintro ⟨val, groups, hval, g', items', hg', hwith, rfl, rfl⟩
    exact ⟨val, groups, g', hval, hg', hwith, rfl⟩
  · rintro ⟨val, groups, g', hval, hg', hwith, rfl⟩
    exact ⟨val, groups, hval, g', items, hg', hwith, rfl, rfl⟩

/-- The groups of the driver keep their names. -/
theorem lookup_res_fetch {c : Collected} {g : String} (hg : '@' ∉ g.toList) :
    (_fetch env drv c).res.lookup g = c.res.lookup g := by
  rw [res_fetch]
  rcases Dict.lookup_foldl_insert_cases (named env c.var c.iterRes) c.res g with
    ⟨items, hmem, -⟩ | ⟨-, hlook⟩
  · obtain ⟨val, groups, g', -, -, -, rfl⟩ := mem_named.mp hmem
    exact absurd (by simp [iterName]) hg
  · exact hlook

/-- An iterative group is found under its name and that of its value. -/
theorem lookup_res_fetch_iterName {c : Collected} (hres : ∀ g ∈ c.res, '@' ∉ g.toList)
    (hiter : ∀ val groups, c.iterRes.lookup val = some groups → ∀ g ∈ groups, '@' ∉ g.toList)
    {val : Value} (hval : ∀ val' ∈ c.iterRes, val'.toText = val.toText → val' = val) {g : String}
    (hg : '@' ∉ g.toList) (hwith : g ≠ "__with__") {items : Items} :
    (_fetch env drv c).res.lookup (iterName g c.var val) = some items ↔
      ∃ groups, c.iterRes.lookup val = some groups ∧ groups.lookup g = some items := by
  have hname : ∀ items', (iterName g c.var val, items') ∈ named env c.var c.iterRes →
      ∃ groups, c.iterRes.lookup val = some groups ∧ groups.lookup g = some items' := by
    intro items' hmem
    obtain ⟨val', groups, g', hval', hg', -, hname⟩ := mem_named.mp hmem
    have hsplit := partition_iterName
      (hiter val' groups hval' g' (Dict.mem_iff_lookup.mpr ⟨_, hg'⟩)) c.var val'
    rw [← hname, partition_iterName hg] at hsplit
    obtain ⟨rfl, -, htext⟩ := by simpa only [Prod.mk.injEq] using hsplit
    rw [String.append_right_inj] at htext
    obtain rfl := hval val' (Dict.mem_iff_lookup.mpr ⟨_, hval'⟩) htext.symm
    exact ⟨groups, hval', hg'⟩
  rw [res_fetch]
  rcases Dict.lookup_foldl_insert_cases (named env c.var c.iterRes) c.res (iterName g c.var val)
    with ⟨items', hmem, hlook⟩ | ⟨hnot, hlook⟩
  · obtain ⟨groups, hgroups, hitems⟩ := hname items' hmem
    rw [hlook, ← hitems]
    constructor
    · exact fun h => ⟨groups, hgroups, h⟩
    · rintro ⟨groups', hgroups', h⟩
      rw [hgroups] at hgroups'
      cases hgroups'
      exact h
  · rw [hlook]
    constructor
    · intro h
      exact absurd (by simp [iterName]) (hres _ (Dict.mem_iff_lookup.mpr ⟨_, h⟩))
    · rintro ⟨groups, hgroups, hitems⟩
      exact absurd (mem_named.mpr ⟨val, groups, g, hgroups, hitems, hwith, rfl⟩) (hnot items)

end names

/-! ## Polling by iteration -/

section polled

variable {env : Driver.Env} {drv : PollDriver} {src : Source} {opts : Dict String Yaml}
  {base : Yaml} {vals : List Value}

theorem mem_outcomes {val : Value} {r : Outcome} : (val, r) ∈ outcomes src opts base vals ↔
    ∃ k, vals[k]? = some val ∧ r = outcome src opts base k val := by
  simp only [outcomes, List.mem_map, Prod.exists, List.mem_zipIdx_iff_getElem?, Prod.mk.injEq]
  constructor
  · rintro ⟨val', k, hk, rfl, rfl⟩
    exact ⟨k, hk, rfl⟩
  · rintro ⟨k, hk, rfl⟩
    exact ⟨val, k, hk, rfl, rfl⟩

theorem forall_outcomes {P : Outcome → Prop} : (∀ p ∈ outcomes src opts base vals, P p.2) ↔
    ∀ k val, vals[k]? = some val → P (outcome src opts base k val) := by
  constructor
  · exact fun h k val hk => h (val, _) (mem_outcomes.mpr ⟨k, hk, rfl⟩)
  · rintro h ⟨val, r⟩ hp
    obtain ⟨k, hk, rfl⟩ := mem_outcomes.mp hp
    exact h k val hk

theorem lookup_succeeded (hvals : vals.Nodup) {val : Value} {groups : Dict String Items} :
    (Dict.ofList (succeeded (outcomes src opts base vals))).lookup val = some groups ↔
      ∃ k, vals[k]? = some val ∧ outcome src opts base k val = .ok groups := by
  have hmem : ∀ val groups, (val, groups) ∈ succeeded (outcomes src opts base vals) ↔
      ∃ k, vals[k]? = some val ∧ outcome src opts base k val = .ok groups := by
    intro val groups
    rw [mem_succeeded, mem_outcomes]
    simp only [eq_comm]
  rw [Dict.lookup_ofList_of_unique, hmem]
  intro val groups groups' h h'
  obtain ⟨k, hk, hok⟩ := (hmem val groups).mp h
  obtain ⟨k', hk', hok'⟩ := (hmem val groups').mp h'
  obtain ⟨hlt, -⟩ := List.getElem?_eq_some_iff.mp hk
  obtain rfl := (List.getElem?_inj hlt hvals).mp (hk.trans hk'.symm)
  rw [hok] at hok'
  exact Except.ok.inj hok'

theorem groups_of_outcome (hgroups : ∀ k inside opts groups, src.gather k inside opts = .ok groups →
    ∀ g ∈ groups, '@' ∉ g.toList) {k : ℕ} {val : Value} {groups : Dict String Items}
    (hok : outcome src opts base k val = .ok groups) : ∀ g ∈ groups, '@' ∉ g.toList := by
  unfold outcome at hok
  split at hok
  · exact hgroups _ _ _ _ hok
  · cases hok

theorem fetchAll_iterRes {res : Dict String Items} (hres : src.gather 0 "groups" opts = .ok res)
    (hiter : drv.iterativeGroups.keys.isEmpty = false) (hvalues : src.values res = .ok vals)
    (hbase : opts.lookup "snmp_community" = some base) :
    fetchAll env drv src opts = match iterRes (outcomes src opts base vals) with
      | .error r => .error (settle r)
      | .ok iterRes => .ok (_fetch env drv ⟨res, src.var, iterRes⟩) := by
  unfold fetchAll collected
  rw [hres]
  dsimp only
  rw [hiter, if_neg Bool.false_ne_true, hvalues, hbase]
  dsimp only
  cases iterRes (outcomes src opts base vals) with
  | error r => rfl
  | ok iterRes => rfl

/-- The groups of a value are those that were polled for it. -/
theorem lookup_res_fetch_outcome {res : Dict String Items} (hvals : vals.Nodup)
    (htext : ∀ v ∈ vals, ∀ w ∈ vals, v.toText = w.toText → v = w)
    (hgroups : ∀ k inside opts groups, src.gather k inside opts = .ok groups →
      ∀ g ∈ groups, '@' ∉ g.toList) (hres : ∀ g ∈ res, '@' ∉ g.toList) {k : ℕ} {val : Value}
    {g : String} {items : Items} (hk : vals[k]? = some val) (hg : '@' ∉ g.toList)
    (hwith : g ≠ "__with__") :
    (_fetch env drv ⟨res, src.var, Dict.ofList (succeeded (outcomes src opts base vals))⟩).res.lookup
        (iterName g src.var val) = some items ↔
      ∃ groups, outcome src opts base k val = .ok groups ∧ groups.lookup g = some items := by
  have hbounds : ∀ val groups, (Dict.ofList (succeeded (outcomes src opts base vals))).lookup
      val = some groups → val ∈ vals ∧ ∀ g ∈ groups, '@' ∉ g.toList := by
    intro val groups hval
    obtain ⟨k, hk, hok⟩ := (lookup_succeeded hvals).mp hval
    exact ⟨List.mem_of_getElem? hk, groups_of_outcome hgroups hok⟩
  have honly : ∀ val' ∈ Dict.ofList (succeeded (outcomes src opts base vals)),
      val'.toText = val.toText → val' = val := by
    intro val' hval'
    obtain ⟨gs, hgs⟩ := Dict.mem_iff_lookup.mp hval'
    exact htext val' (hbounds val' gs hgs).1 val (List.mem_of_getElem? hk)
  refine (@lookup_res_fetch_iterName env drv ⟨res, src.var, _⟩ hres
    (fun v gs h => (hbounds v gs h).2) val honly g hg hwith items).trans ?_
  constructor
  · rintro ⟨gs, hgs, hg⟩
    obtain ⟨k', hk', hok⟩ := (lookup_succeeded hvals).mp hgs
    obtain ⟨hlt, -⟩ := List.getElem?_eq_some_iff.mp hk
    obtain rfl := (List.getElem?_inj hlt hvals).mp (hk.trans hk'.symm)
    exact ⟨gs, hok, hg⟩
  · rintro ⟨gs, hok, hg⟩
    exact ⟨gs, (lookup_succeeded hvals).mpr ⟨k, hk, hok⟩, hg⟩

/-- **Polling by iteration.**  With a community and distinct values, `_fetch` succeeds if and only
if none of the polls of the values times out and some of them succeeds.  It returns the groups of
the driver, and beside them, for each value, the iterative groups that were polled under its own
community.  It fails with the timeout, or, where the references of all values are missing, with
that, or else because nothing was polled. -/
theorem fetchAll_iterative {res : Dict String Items} (hres : src.gather 0 "groups" opts = .ok res)
    (hiter : drv.iterativeGroups.keys.isEmpty = false) (hvalues : src.values res = .ok vals)
    (hbase : opts.lookup "snmp_community" = some base) (hvals : vals.Nodup)
    (htext : ∀ v ∈ vals, ∀ w ∈ vals, v.toText = w.toText → v = w)
    (hgroups : ∀ k inside opts groups, src.gather k inside opts = .ok groups →
      ∀ g ∈ groups, '@' ∉ g.toList) :
    ((∃ n, fetchAll env drv src opts = .ok n) ↔
        (∀ k val, vals[k]? = some val → ¬ IsTimedOut (outcome src opts base k val))
          ∧ ∃ k val groups, vals[k]? = some val ∧ outcome src opts base k val = .ok groups)
      ∧ (∀ n, fetchAll env drv src opts = .ok n →
        (∀ g, '@' ∉ g.toList → n.res.lookup g = res.lookup g)
          ∧ ∀ k val g items, vals[k]? = some val → '@' ∉ g.toList → g ≠ "__with__" →
            (n.res.lookup (iterName g src.var val) = some items ↔
              ∃ groups, outcome src opts base k val = .ok groups
                ∧ groups.lookup g = some items))
      ∧ ∀ e, fetchAll env drv src opts = .error e →
        (∃ msg, e = settle (.timedOut msg)
            ∧ ∃ k val, vals[k]? = some val ∧ IsTimedOut (outcome src opts base k val))
          ∨ (e = .other (.refNotFound "iterative polling failed")
            ∧ vals ≠ [] ∧ ∀ k val, vals[k]? = some val →
              IsRefNotFound (outcome src opts base k val))
          ∨ (e = .other (.exception "iterative groups polling failed")
            ∧ ∀ k val, vals[k]? = some val → ¬ IsTimedOut (outcome src opts base k val)
              ∧ ∀ groups, outcome src opts base k val ≠ .ok groups) := by
  rw [fetchAll_iterRes hres hiter hvalues hbase]
  rcases iterRes_cases (outcomes src opts base vals) with
    ⟨⟨msg, hend⟩, ⟨val, r⟩, hp, htimed⟩ | ⟨hend, htimed, ⟨val, r⟩, hp, groups, hok⟩
      | ⟨hend, hne, hrefs⟩ | ⟨hend, hnone⟩
  · rw [hend]
    obtain ⟨k, hk, rfl⟩ := mem_outcomes.mp hp
    exact ends_of_error rfl (fun h => h.1 k val hk htimed) (Or.inl ⟨msg, rfl, k, val, hk, htimed⟩)
  · rw [hend]
    obtain ⟨k, hk, hr⟩ := mem_outcomes.mp hp
    have htimed' := (forall_outcomes (P := fun r => ¬ IsTimedOut r)).mp htimed
    refine ends_of_ok rfl ⟨htimed', k, val, groups, hk, hr.symm.trans hok⟩
      ⟨fun g hg => lookup_res_fetch hg, ?_⟩
    intro k val g items hk hg hwith
    exact lookup_res_fetch_outcome hvals htext hgroups (hgroups _ _ _ _ hres) hk hg hwith
  · rw [hend]
    have hrefs' := forall_outcomes.mp hrefs
    refine ends_of_error rfl ?_ (Or.inr (Or.inl ⟨rfl, ?_, hrefs'⟩))
    · rintro ⟨-, k, val, groups, hk, hok⟩
      obtain ⟨msg, hmsg⟩ := hrefs' k val hk
      rw [hok] at hmsg
      cases hmsg
    · rintro rfl
      exact hne rfl
  · rw [hend]
    have hnone' := (forall_outcomes (P := fun r => ¬ IsTimedOut r ∧ ∀ groups, r ≠ .ok groups)).mp
      hnone
    refine ends_of_error rfl ?_ (Or.inr (Or.inr ⟨rfl, hnone'⟩))
    rintro ⟨-, k, val, groups, hk, hok⟩
    exact (hnone' k val hk).2 groups hok

end polled

/-! ### Spanning trees -/

/-- A driver that reads the spanning tree of one VLAN at a time. -/
def treeDriver : PollDriver where
  posts := {}
  groups := Dict.ofList [("vlans", {}), ("interfaces", { clean := true })]
  iterativeGroups := Dict.ofList [("__with__", {}),
    ("status", { additionalKeyNames := some ["vlan"] })]

def treeVlans : List Value := [.int 1, .int 13, .int 1002]

def treeOptions : Dict String Yaml := Dict.ofList [("snmp_community", .str "public")]

def vlanItems : Items := Dict.ofList [("1", 0)]

def treeItems : Items := Dict.ofList [("0", 1)]

/-- The second VLAN has no spanning tree, and the third one does not answer. -/
def treeSource : Source where
  gather := fun _ inside opts =>
    match inside, opts.lookup "snmp_community" with
    | "groups", _ => .ok (Dict.ofList [("vlans", vlanItems)])
    | _, some (.str "public@1") => .ok (Dict.ofList [("status", treeItems)])
    | _, some (.str "public@13") => .error (.other (.refNotFound "dot1dStpRootCost"))
    | _, _ => .error (.agentTimeout "agent")
  var := "vlan"
  values := fun _ => .ok treeVlans

/-- The tree of the first VLAN is beside the names of all of them. -/
theorem fetchAll_iterative_vlans : ∃ n,
    fetchAll Driver.sampleEnv treeDriver treeSource treeOptions = .ok n
      ∧ n.res.lookup "vlans" = some vlanItems
        ∧ n.res.lookup "status@vlan=1" = some treeItems
        ∧ n.res.lookup "status@vlan=13" = none := by
  have hgroups : ∀ k inside opts groups, treeSource.gather k inside opts = .ok groups →
      ∀ g ∈ groups, '@' ∉ g.toList := by
    intro k inside opts groups h g hg
    simp only [treeSource] at h
    split at h
    · cases h
      obtain rfl := List.mem_singleton.mp (AList.mem_keys.mp hg)
      decide
    · cases h
      obtain rfl := List.mem_singleton.mp (AList.mem_keys.mp hg)
      decide
    · cases h
    · cases h
  obtain ⟨hiff, hok, -⟩ := @fetchAll_iterative Driver.sampleEnv treeDriver treeSource treeOptions
    (.str "public") treeVlans (Dict.ofList [("vlans", vlanItems)]) rfl rfl rfl rfl (by decide)
    (by decide) hgroups
  have htimed : ∀ k val, treeVlans[k]? = some val →
      ¬ IsTimedOut (outcome treeSource treeOptions (.str "public") k val) := by
    rintro k val hk ⟨msg, hmsg⟩
    have hval : val ∈ treeVlans := List.mem_of_getElem? hk
    rcases List.mem_cons.mp hval with rfl | hval
    · cases hmsg
    · rcases List.mem_cons.mp hval with rfl | hval
      · cases hmsg
      · cases List.mem_singleton.mp hval
        cases hmsg
  obtain ⟨n, hn⟩ := hiff.mpr ⟨htimed, 0, .int 1, Dict.ofList [("status", treeItems)], rfl, rfl⟩
  obtain ⟨hplain, hiter⟩ := hok n hn
  refine ⟨n, hn, (hplain "vlans" (by decide)).trans rfl,
    (hiter 0 (.int 1) "status" treeItems rfl (by decide) (by decide)).mpr ⟨_, rfl, rfl⟩, ?_⟩
  -- the reference is not found for the second one
  refine Option.eq_none_iff_forall_ne_some.mpr (fun items hitems => ?_)
  obtain ⟨groups, hnone, -⟩ :=
    (hiter 1 (.int 13) "status" items rfl (by decide) (by decide)).mp hitems
  cases hnone

end Poll
