/-
# The bulk walk

`fetch_by_bulkwalk` reads a column of an agent by requests for up to a hundred
successors of the last instance that it has seen.  Rows of other columns are skipped.
It goes on while the last row that it has seen is of the column, and stops also when
two instances in a row are the same, which is how it notices an agent whose rows do not
increase.

The names of identifiers are those of `OID.decode`, and values come as the SNMP library
renders them.  `fetch` never asks for close matches, and they are left out.
-/
import Ptolemy.ObjectNames

namespace NetSNMP

/-! ## Rows -/

/-- A variable of a response, by its type. -/
inductive Variable : Type where
  | octetStr (s : String)
  /-- The types of integers, counters, gauges and ticks. -/
  | integer (n : Int)
  | null
  | objectId (o : Oid)
  | ipAddress (a b c d : ℕ)
  | float
  | double
  | noSuchObject
  | noSuchInstance
  | endOfMibView
  | other (type : ℕ)
  deriving DecidableEq

/-- The value of a row; where there is none, what the agent says instead. -/
inductive Got : Type where
  | value (v : Value)
  | objid (o : Oid)
  | noSuchObject
  | noSuchInstance
  | endOfMibView
  deriving DecidableEq

/-- `_decode_variable`.  The fields that it reads of a `float` and a `double` are not there. -/
def decodeVariable : Variable → Except Exn Got
  | .octetStr s => .ok (.value (.str s))
  | .integer n => .ok (.value (.int n))
  | .null => .ok (.value .none)
  | .objectId o => .ok (.objid o)
  | .ipAddress a b c d =>
      .ok (.value (.str (Text.join "." ([a, b, c, d].map (fun n => toString n)))))
  | .float =>
      .error (.attributeError "'netsnmp_vardata' object has no attribute 'float'")
  | .double =>
      .error (.attributeError "'netsnmp_vardata' object has no attribute 'double'")
  | .noSuchObject => .ok .noSuchObject
  | .noSuchInstance => .ok .noSuchInstance
  | .endOfMibView => .ok .endOfMibView
  | .other type =>
      .error (.exception ("decoding of vartype " ++ toString type ++ " not implemented"))

/-- A response. -/
structure Pdu : Type where
  errstat : ℕ := 0
  vars : List (Oid × Variable)

/-- The rows of a response: none when it has an error status. -/
def Pdu.rows (pdu : Pdu) : List (Oid × Variable) := if pdu.errstat = 0 then pdu.vars else []

/-- The label of an enumerated integer. -/
def labelled (labels : Dict Int String) : Got → Got
  | .value (.int n) => match labels.lookup n with
    | some label => .value (.str label)
    | none => .value (.int n)
  | v => v

/-- What is made of a value: its label, and `None` of an empty text. -/
def present (labels : Dict Int String) (v : Got) : Got :=
  if labelled labels v = .value (.str "") then .value .none else labelled labels v

/-! ## The walk over one column -/

/-- `MAPPING_ENUM_CACHE`: the labels that are kept under a name. -/
abbrev EnumCache : Type := Dict (Option String) (Dict Int String)

/-- The variables of the loop, and what it has yielded. -/
structure Walk : Type where
  thisF : Option String
  thisOid : Oid
  cache : EnumCache
  errored : Bool := false
  lastIid : Option String := none
  out : List (Option String × Option String × Got) := []

variable (mib : Mib)

/-- One row. -/
def Walk.row (wanted : Option String) (s : Walk) (o : Oid) (v : Got) : Walk :=
  let f := (mib.decode o).1
  let iid := (mib.decode o).2
  if f = wanted then
    { thisF := f, thisOid := o, errored := s.errored || decide (iid = s.lastIid), lastIid := iid,
      cache := if f ∈ s.cache then s.cache else s.cache.insert f (mib.enums o),
      out := s.out ++ [(f, iid, present ((s.cache.lookup f).getD (mib.enums o)) v)] }
  else { s with thisF := f }

/-- The rows of one response. -/
def Walk.receive (wanted : Option String) (s : Walk) (pdu : Pdu) : Except Exn Walk :=
  pdu.rows.foldlM (fun s b => do
    let v ← decodeVariable b.2
    pure (s.row mib wanted b.1 v)) s

/-- The condition of the loop. -/
def Walk.goesOn (name : String) (s : Walk) : Bool :=
  decide (s.thisF = some name) && !s.errored

/-- The loop, for at most `fuel` requests, from request number `k` on.  `answer` is what the agent
says to a request, or how it fails. -/
def loop (name : String) (wanted : Option String) (answer : ℕ → Oid → Except Exn Pdu) :
    ℕ → ℕ → Walk → Option (Except Exn Walk)
  | 0, _, s => if s.goesOn name then none else some (.ok s)
  | fuel + 1, k, s =>
      if s.goesOn name then
        match (do let pdu ← answer k s.thisOid; s.receive mib wanted pdu) with
        | .error e => some (.error e)
        | .ok s => loop name wanted answer fuel (k + 1) s
      else some (.ok s)

/-- `fetch_by_bulkwalk` for one column. -/
def fetchColumn (answer : ℕ → Oid → Except Exn Pdu) (fuel : ℕ) (cache : EnumCache)
    (name : String) : Option (Except Exn Walk) :=
  match mib.translate name with
  | .error e => some (.error e)
  | .ok column => loop mib name (mib.decode column).1 answer fuel 0
      { thisF := some name, thisOid := column, cache := cache }

/-- `fetch_by_bulkwalk`: the columns one after the other. -/
def fetchByBulkwalk (answer : String → ℕ → Oid → Except Exn Pdu) (fuel : ℕ) :
    EnumCache → List String → Option (Except Exn (List (Option String × Option String × Got)))
  | _, [] => some (.ok [])
  | cache, name :: names => match fetchColumn mib (answer name) fuel cache name with
    | none => none
    | some (.error e) => some (.error e)
    | some (.ok s) =>
        (fetchByBulkwalk answer fuel s.cache names).map (Except.map (fun out => s.out ++ out))

/-! ## What the rows make of the variables of the loop -/

/-- The instances of the rows that are of the column. -/
def iids (wanted : Option String) (rows : List (Oid × Variable)) : List (Option String) :=
  (rows.filter (fun b => (mib.decode b.1).1 = wanted)).map (fun b => (mib.decode b.1).2)

/-- The value of a variable that can be decoded. -/
def Variable.got (var : Variable) : Got :=
  match decodeVariable var with
  | .ok v => v
  | .error _ => .value .none

/-- What is yielded for the rows. -/
def yielded (labels : Dict Int String) (wanted : Option String) (rows : List (Oid × Variable)) :
    List (Option String × Option String × Got) :=
  (rows.filter (fun b => (mib.decode b.1).1 = wanted)).map
    (fun b => (wanted, (mib.decode b.1).2, present labels b.2.got))

/-- The labels of the column: those that are kept under its name, else those of its rows. -/
def Walk.labels (wanted : Option String) (labels : Dict Int String) (s : Walk) : Dict Int String :=
  (s.cache.lookup wanted).getD labels

/-- The last row that is of the column, if there is one. -/
def lastOid (wanted : Option String) (rows : List (Oid × Variable)) : Option Oid :=
  (rows.filter (fun b => (mib.decode b.1).1 = wanted)).getLast?.map Prod.fst

/-- The name of the last row, if there is one. -/
def lastName (rows : List (Oid × Variable)) : Option (Option String) :=
  rows.getLast?.map (fun b => (mib.decode b.1).1)

/-- After some rows: the name of the last one, the last one of the column, whether two instances in a
row are the same, and what is yielded where the rows of the column have the same labels. -/
structure Seen (wanted : Option String) (rows : List (Oid × Variable)) (s s' : Walk) : Prop where
  thisF : s'.thisF = (lastName mib rows).getD s.thisF
  lastIid : s'.lastIid = ((iids mib wanted rows).getLast?).getD s.lastIid
  errored : s'.errored = true ↔
    s.errored = true ∨ ¬ (s.lastIid :: iids mib wanted rows).IsChain (· ≠ ·)
  thisOid : s'.thisOid = (lastOid mib wanted rows).getD s.thisOid
  out : ∀ labels, (∀ b ∈ rows, (mib.decode b.1).1 = wanted → mib.enums b.1 = labels) →
    s'.labels wanted labels = s.labels wanted labels ∧
    s'.out = s.out ++ yielded mib (s.labels wanted labels) wanted rows

variable {mib} {name : String} {wanted : Option String} {s : Walk}

theorem seen_row {o : Oid} {var : Variable} {v : Got} (hv : decodeVariable var = .ok v) :
    Seen mib wanted [(o, var)] s (s.row mib wanted o v) := by
  have hgot : var.got = v := by rw [Variable.got, hv]
  unfold Walk.row
  by_cases hf : (mib.decode o).1 = wanted
  · have hrow : [(o, var)].filter (fun b => decide ((mib.decode b.1).1 = wanted)) = [(o, var)] :=
      List.filter_eq_self.mpr (by simpa using hf)
    have hiids : iids mib wanted [(o, var)] = [(mib.decode o).2] := by rw [iids, hrow]; rfl
    rw [if_pos hf]
    refine ⟨rfl, by rw [hiids]; rfl, ?_, by rw [lastOid, hrow]; rfl, fun labels hlabels => ?_⟩
    · rw [hiids, List.isChain_pair]
      simp only [Bool.or_eq_true, decide_eq_true_eq, ne_eq, not_not]
      exact or_congr Iff.rfl eq_comm
    · have henums : mib.enums o = labels := hlabels (o, var) List.mem_cons_self hf
      subst hf
      rw [yielded, hrow, List.map_singleton, hgot, henums]
      refine ⟨?_, rfl⟩
      show ((if _ then s.cache else s.cache.insert _ labels).lookup _).getD labels = _
      split_ifs with hmem
      · rfl
      · rw [Walk.labels, Dict.lookup_insert_eq, if_pos rfl, AList.lookup_eq_none.mpr hmem]
        rfl
  · have hrow : [(o, var)].filter (fun b => decide ((mib.decode b.1).1 = wanted)) = [] :=
      List.filter_eq_nil_iff.mpr (by simpa using hf)
    have hiids : iids mib wanted [(o, var)] = [] := by rw [iids, hrow]; rfl
    rw [if_neg hf]
    refine ⟨rfl, by rw [hiids]; rfl, ?_, by rw [lastOid, hrow]; rfl, fun labels _ => ⟨rfl, ?_⟩⟩
    · rw [hiids]
      simp
    · rw [yielded, hrow, List.map_nil, List.append_nil]

theorem Seen.refl : Seen mib wanted [] s s := by
  refine ⟨rfl, rfl, ?_, rfl, fun _ _ => ⟨rfl, (List.append_nil _).symm⟩⟩
  simp [iids]

theorem isChain_cons_append {α : Type} {R : α → α → Prop} {a : α} {l l' : List α} :
    (a :: (l ++ l')).IsChain R ↔ (a :: l).IsChain R ∧ (l.getLast?.getD a :: l').IsChain R := by
  induction l generalizing a with
  | nil => simp
  | cons b l ih =>
    have hlast : (b :: l).getLast?.getD a = l.getLast?.getD b := by
      rw [List.getLast?_cons, Option.getD_some]
    rw [List.cons_append, List.isChain_cons_cons, ih, List.isChain_cons_cons, hlast, and_assoc]

theorem Seen.trans {rows rows' : List (Oid × Variable)} {s' s'' : Walk}
    (h : Seen mib wanted rows s s') (h' : Seen mib wanted rows' s' s'') :
    Seen mib wanted (rows ++ rows') s s'' := by
  have hiids : iids mib wanted (rows ++ rows') = iids mib wanted rows ++ iids mib wanted rows' := by
    simp [iids]
  refine ⟨?_, ?_, ?_, ?_, fun labels hlabels => ?_⟩
  · rw [h'.thisF, h.thisF, lastName, lastName, lastName, List.getLast?_append]
    cases rows'.getLast? <;> rfl
  · rw [h'.lastIid, h.lastIid, hiids, List.getLast?_append]
    cases (iids mib wanted rows').getLast? <;> rfl
  · rw [h'.errored, h.errored, hiids, isChain_cons_append, h.lastIid, not_and_or, or_assoc]
  · rw [h'.thisOid, h.thisOid, lastOid, lastOid, lastOid, List.filter_append, List.getLast?_append]
    cases (rows'.filter _).getLast? <;> rfl
  · obtain ⟨hkept, hout⟩ := h.out labels (fun b hb => hlabels b (List.mem_append_left _ hb))
    obtain ⟨hkept', hout'⟩ := h'.out labels (fun b hb => hlabels b (List.mem_append_right _ hb))
    refine ⟨hkept'.trans hkept, ?_⟩
    rw [hout', hout, hkept, yielded, yielded, yielded, List.filter_append, List.map_append,
      List.append_assoc]

variable (mib wanted s) in
/-- **One response** whose variables can be decoded. -/
theorem exists_receive {pdu : Pdu} (h : ∀ b ∈ pdu.rows, ∃ v, decodeVariable b.2 = .ok v) :
    ∃ s', s.receive mib wanted pdu = .ok s' ∧ Seen mib wanted pdu.rows s s' := by
  unfold Walk.receive
  generalize pdu.rows = rows at h ⊢
  induction rows generalizing s with
  | nil => exact ⟨s, rfl, Seen.refl⟩
  | cons b rows ih =>
    obtain ⟨v, hv⟩ := h b List.mem_cons_self
    obtain ⟨s', hs', hseen⟩ := ih (s := s.row mib wanted b.1 v)
      (fun b' hb' => h b' (List.mem_cons_of_mem b hb'))
    refine ⟨s', ?_, (seen_row hv).trans hseen⟩
    rw [List.foldlM_cons, hv]
    exact hs'

theorem receive_error {pdu : Pdu} {b : Oid × Variable} (hb : b ∈ pdu.rows) {e : Exn}
    (he : decodeVariable b.2 = .error e) : ∃ e', s.receive mib wanted pdu = .error e' := by
  unfold Walk.receive
  generalize pdu.rows = rows at hb ⊢
  induction rows generalizing s with
  | nil => cases hb
  | cons c rows ih =>
    rw [List.foldlM_cons]
    cases hc : decodeVariable c.2 with
    | error e' => exact ⟨e', rfl⟩
    | ok v =>
      rcases List.mem_cons.mp hb with rfl | hb
      · rw [he] at hc
        cases hc
      · exact ih hb

theorem exists_of_receive {pdu : Pdu} {s' : Walk} (h : s.receive mib wanted pdu = .ok s') :
    ∀ b ∈ pdu.rows, ∃ v, decodeVariable b.2 = .ok v := by
  intro b hb
  cases hv : decodeVariable b.2 with
  | ok v => exact ⟨v, rfl⟩
  | error e =>
    obtain ⟨e', he'⟩ := @receive_error mib wanted s pdu b hb e hv
    cases he'.symm.trans h

/-- The last row of a response is yielded last, where it is of the column. -/
theorem getLast?_out_of_receive {pdu : Pdu} {rows : List (Oid × Variable)} {b : Oid × Variable}
    {s' : Walk} (h : s.receive mib wanted pdu = .ok s') (hrows : pdu.rows = rows ++ [b])
    (hb : (mib.decode b.1).1 = wanted) :
    ∃ labels, s'.out.getLast? = some (wanted, (mib.decode b.1).2, present labels b.2.got) := by
  unfold Walk.receive at h
  rw [hrows, List.foldlM_append] at h
  obtain ⟨t, -, h⟩ := Except.bind_eq_ok.mp h
  rw [List.foldlM_cons] at h
  obtain ⟨t', ht', h⟩ := Except.bind_eq_ok.mp h
  obtain ⟨v, hv, ht'⟩ := Except.bind_eq_ok.mp ht'
  obtain rfl := Except.ok.inj ht'
  obtain rfl : t.row mib wanted b.1 v = s' := Except.ok.inj h
  have hgot : b.2.got = v := by rw [Variable.got, hv]
  refine ⟨(t.cache.lookup wanted).getD (mib.enums b.1), ?_⟩
  unfold Walk.row
  rw [if_pos hb, List.getLast?_concat, hgot, hb]

/-! ## When the walk stops -/

/-- The rows of an answer. -/
def rowsOf : Except Exn Pdu → List (Oid × Variable)
  | .ok pdu => pdu.rows
  | .error _ => []

/-- The rows of the first `k` answers. -/
def rowsBefore (answers : ℕ → Except Exn Pdu) (k : ℕ) : List (Oid × Variable) :=
  (List.range k).flatMap (fun i => rowsOf (answers i))

/-- Answer number `k` ends the walk: it fails, a variable in it cannot be decoded, its last row is
of another column, or it has two instances of the column in a row that are the same, perhaps with
the last one of an answer before. -/
inductive Ends (mib : Mib) (column : Oid) (name : String) (answers : ℕ → Except Exn Pdu) (k : ℕ) : Prop where
  | fails {e : Exn} (h : answers k = .error e)
  | undecoded {b : Oid × Variable} {e : Exn} (hb : b ∈ rowsOf (answers k))
      (he : decodeVariable b.2 = .error e)
  | foreign {f : Option String} (hf : lastName mib (rowsOf (answers k)) = some f)
      (hne : f ≠ some name)
  | repeated (h : ¬ (none :: iids mib (mib.decode column).1
      (rowsBefore answers (k + 1))).IsChain (· ≠ ·))

/-- The loop goes on after `k` answers. -/
structure Reached (mib : Mib) (column : Oid) (name : String) (cache : EnumCache)
    (answers : ℕ → Except Exn Pdu) (k : ℕ) (s : Walk) : Prop where
  goesOn : s.goesOn name = true
  seen : Seen mib (mib.decode column).1 (rowsBefore answers k)
    { thisF := some name, thisOid := column, cache := cache } s

theorem goesOn_iff : s.goesOn name = true ↔ s.thisF = some name ∧ s.errored = false := by
  simp [Walk.goesOn]

variable {answers : ℕ → Except Exn Pdu} {column : Oid} {cache : EnumCache} {k : ℕ}

/-- **One turn**: the loop ends, or it goes on and has seen one more answer. -/
theorem Reached.turn (h : Reached mib column name cache answers k s) :
    (Ends mib column name answers k ∧
      ((∃ e, (do let pdu ← answers k
                 s.receive mib (mib.decode column).1 pdu) = .error e)
        ∨ ∃ s', (do let pdu ← answers k
                    s.receive mib (mib.decode column).1 pdu) = .ok s'
          ∧ s'.goesOn name = false))
    ∨ ¬ Ends mib column name answers k ∧
      ∃ s', (do let pdu ← answers k
                s.receive mib (mib.decode column).1 pdu) = .ok s'
        ∧ Reached mib column name cache answers (k + 1) s' := by
  have hrows : rowsBefore answers (k + 1) = rowsBefore answers k ++ rowsOf (answers k) := by
    simp [rowsBefore, List.range_succ]
  cases hk : answers k with
  | error e => exact Or.inl ⟨.fails hk, Or.inl ⟨e, rfl⟩⟩
  | ok pdu =>
    have hof : rowsOf (answers k) = pdu.rows := by rw [hk, rowsOf]
    by_cases hdecode : ∀ b ∈ pdu.rows, ∃ v, decodeVariable b.2 = .ok v
    · obtain ⟨s', hs', hseen⟩ := exists_receive mib (mib.decode column).1 s hdecode
      have hall := h.seen.trans hseen
      rw [← hof, ← hrows] at hall
      -- the answer leaves the loop going on just when it does not end the walk
      have hgoes : s'.goesOn name = true ↔ ¬ Ends mib column name answers k := by
        rw [goesOn_iff, ← Bool.not_eq_true, hall.errored, hseen.thisF, (goesOn_iff.mp h.goesOn).1]
        constructor
        · rintro ⟨hname, herr⟩ hends
          cases hends with
          | fails he =>
            rw [hk] at he
            cases he
          | undecoded hb he =>
            obtain ⟨v, hv⟩ := hdecode _ (hof ▸ hb)
            rw [hv] at he
            cases he
          | foreign hf hne =>
            rw [hof] at hf
            rw [hf, Option.getD_some] at hname
            exact hne hname
          | repeated hchain => exact herr (Or.inr hchain)
        · intro hnot
          refine ⟨?_, ?_⟩
          · cases hlast : lastName mib pdu.rows with
            | none => rfl
            | some f =>
              by_contra hne
              exact hnot (.foreign (hof ▸ hlast) hne)
          · rintro (herr | hchain)
            · cases herr
            · exact hnot (.repeated hchain)
      by_cases hends : Ends mib column name answers k
      · refine Or.inl ⟨hends, Or.inr ⟨s', hs', ?_⟩⟩
        rw [← Bool.not_eq_true, hgoes]
        exact not_not_intro hends
      · exact Or.inr ⟨hends, s', hs', hgoes.mpr hends, hall⟩
    · push Not at hdecode
      obtain ⟨b, hb, hnone⟩ := hdecode
      obtain ⟨e, he⟩ : ∃ e, decodeVariable b.2 = .error e := by
        cases hv : decodeVariable b.2 with
        | error e => exact ⟨e, rfl⟩
        | ok v => exact absurd hv (hnone v)
      exact Or.inl ⟨.undecoded (hof ▸ hb) he, Or.inl (receive_error hb he)⟩

theorem reached_start : Reached mib column name cache answers 0
    { thisF := some name, thisOid := column, cache := cache } :=
  ⟨goesOn_iff.mpr ⟨rfl, rfl⟩, Seen.refl⟩

/-- Without an answer that ends the walk the loop runs out of any number of requests. -/
theorem loop_eq_none (h : ∀ i, ¬ Ends mib column name answers i) (fuel : ℕ)
    (hs : Reached mib column name cache answers k s) :
    loop mib name (mib.decode column).1 (fun i _ => answers i) fuel k s = none := by
  induction fuel generalizing k s with
  | zero => rw [loop, if_pos hs.goesOn]
  | succ fuel ih =>
    rcases hs.turn with ⟨hends, -⟩ | ⟨-, s', hs', hreached⟩
    · exact absurd hends (h k)
    · rw [loop, if_pos hs.goesOn, hs']
      exact ih hreached

/-- With an answer that ends the walk the loop ends there at the latest. -/
theorem isSome_loop {n : ℕ} (h : Ends mib column name answers (k + n))
    (hs : Reached mib column name cache answers k s) :
    (loop mib name (mib.decode column).1 (fun i _ => answers i) (n + 1) k s).isSome := by
  induction n generalizing k s with
  | zero =>
    rcases hs.turn with ⟨-, ⟨e, he⟩ | ⟨s', hs', hstop⟩⟩ | ⟨hnot, -⟩
    · rw [loop, if_pos hs.goesOn, he]
      rfl
    · rw [loop, if_pos hs.goesOn, hs']
      simp only [loop, hstop]
      rfl
    · exact absurd h hnot
  | succ n ih =>
    rcases hs.turn with ⟨-, ⟨e, he⟩ | ⟨s', hs', hstop⟩⟩ | ⟨-, s', hs', hreached⟩
    · rw [loop, if_pos hs.goesOn, he]
      rfl
    · rw [loop, if_pos hs.goesOn, hs']
      simp only [loop, hstop]
      rfl
    · rw [loop, if_pos hs.goesOn, hs']
      exact ih (by rwa [← Nat.add_assoc, Nat.add_right_comm] at h) hreached

theorem fetchColumn_eq {answer : ℕ → Oid → Except Exn Pdu} {fuel : ℕ}
    (h : mib.translate name = .ok column) : fetchColumn mib answer fuel cache name
      = loop mib name (mib.decode column).1 answer fuel 0
        { thisF := some name, thisOid := column, cache := cache } := by
  rw [fetchColumn, h]

variable (mib name cache answers) in
/-- **Termination**: whatever an agent answers, the walk over a column stops after finitely many
requests if and only if the name has no identifier or one of the answers ends the walk. -/
theorem stops_iff_ends :
    (∃ fuel, (fetchColumn mib (fun k _ => answers k) fuel cache name).isSome)
      ↔ ∀ column, mib.translate name = .ok column → ∃ k, Ends mib column name answers k := by
  cases hname : mib.translate name with
  | error e =>
    refine ⟨fun _ column hc => (by cases hc), fun _ => ⟨0, ?_⟩⟩
    rw [fetchColumn, hname]
    rfl
  | ok column =>
    simp only [fetchColumn_eq hname]
    constructor
    · rintro ⟨fuel, hfuel⟩ column' hcolumn
      obtain rfl := Except.ok.inj hcolumn
      by_contra hnone
      push Not at hnone
      rw [loop_eq_none hnone fuel reached_start] at hfuel
      cases hfuel
    · intro h
      obtain ⟨k, hk⟩ := h column rfl
      exact ⟨k + 1, isSome_loop (n := k) (by rwa [Nat.zero_add]) reached_start⟩

/-! ### The aliases of a switch -/

/-- The texts of the aliases of the interfaces, and of what stands before and behind them. -/
def interfaceText : Oid → String
  | [1, 18] => "IF-MIB::ifAlias"
  | [1, 18, i] => "IF-MIB::ifAlias." ++ toString i
  | _ => "IF-MIB::ifDescr"

def interfaces : Mib where
  whichModule := fun module => decide (module = "IF-MIB")
  getModuleNode := fun seq _ => if seq = "ifAlias" then some [1, 18] else none
  getNode := fun f => if f = "ifAlias" then some [1, 18] else none
  snprintObjid := interfaceText

/-- An agent that gives nothing but errors. -/
def failing : ℕ → Except Exn Pdu := fun _ => .ok { errstat := 5, vars := [] }

/-- The walk never stops. -/
theorem not_stops_failing :
    ¬ ∃ fuel, (fetchColumn interfaces (fun k _ => failing k) fuel ∅ "ifAlias").isSome := by
  rw [stops_iff_ends]
  intro h
  obtain ⟨k, hends⟩ := h [1, 18] (by decide)
  cases hends with
  | fails he => cases he
  | undecoded hb he => cases hb
  | foreign hf hne => cases hf
  | repeated hchain =>
    have hrows : rowsBefore failing (k + 1) = [] :=
      List.flatMap_eq_nil_iff.mpr (fun i _ => rfl)
    rw [hrows] at hchain
    exact hchain (List.isChain_singleton _)

end NetSNMP
