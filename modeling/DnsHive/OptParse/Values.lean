import DnsHive.OptParse.Reading

/-!
# The values that are read

What `Values` holds after a command line, for each destination: the last value that was given
(`lookup_after`), all that were appended (`all_after`), and if there was one (`isSetByUser_after`).
Where none was given the defaults of the parser count, and then those of its options
(`lookup_withDefaults`).

An option that counts stores the successor of what is stored, so that the values that are given to a
destination depend on each other: `givenFrom` carries the last one along.  `given_count` is what
becomes of a counter, and `given_eq` is for options that do not count.

`parseArgv_iff` says what `parse_args` returns, and `parsed_values` what is in it.
-/

set_option autoImplicit false

namespace DnsHive.OptParse

/-- What one option stores to a destination, where `old` is stored. -/
def Opt.storedAt (o : Opt) (value old d : Bytes) : Option Bytes :=
  if o.dest = d then o.stored value old else none

/-- What one option appends to the list of a destination. -/
def Opt.listedAt (o : Opt) (value d : Bytes) : Option Bytes :=
  if o.dest = d then o.listed value else none

/-- The values that some options store to a destination, one after the other. -/
def givenFrom (old : Bytes) : List Use → Bytes → List Bytes
  | [], _ => []
  | u :: uses, d =>
    match u.option.storedAt u.value old d with
    | none => givenFrom old uses d
    | some v => v :: givenFrom v uses d

/-- The values that are given to a destination. -/
def given (uses : List Use) (d : Bytes) : List Bytes := givenFrom [] uses d

/-- The values that are appended. -/
def appended (uses : List Use) (d : Bytes) : List Bytes :=
  uses.filterMap fun u ↦ u.option.listedAt u.value d

namespace Values

variable (vs : Values) (d d' value : Bytes)

@[simp] theorem lookup_set :
    (vs.set d value).map.lookup d' = if d = d' then some value else vs.map.lookup d' := by
  split
  · subst d'
    exact Finmap.lookup_insert _
  · exact Finmap.lookup_insert_of_ne _ (Ne.symm ‹_›)

@[simp] theorem lookup_pushBack : (vs.pushBack d value).map = vs.map := rfl

@[simp] theorem all_set : (vs.set d value).all d' = vs.all d' := rfl

@[simp] theorem all_pushBack :
    (vs.pushBack d value).all d' =
      if d = d' then some ((vs.all d').getD [] ++ [value]) else vs.all d' := by
  split
  · subst d'
    exact Finmap.lookup_insert _
  · exact Finmap.lookup_insert_of_ne _ (Ne.symm ‹_›)

@[simp] theorem isSetByUser_set :
    (vs.set d value).isSetByUser d' = (decide (d = d') || vs.isSetByUser d') := by
  simp [set, isSetByUser, eq_comm]

@[simp] theorem isSetByUser_pushBack :
    (vs.pushBack d value).isSetByUser d' = vs.isSetByUser d' := rfl

end Values

/-! ## The options that were given -/

section After

variable (vs : Values) (u : Use) (uses : List Use) (o : Opt) (value old d : Bytes)

theorem after_cons : vs.after (u :: uses) = (u.option.assign u.value vs).after uses := rfl

theorem givenFrom_cons :
    givenFrom old (u :: uses) d = (u.option.storedAt u.value old d).toList ++
      givenFrom ((u.option.storedAt u.value old d).getD old) uses d := by
  rw [givenFrom]
  cases u.option.storedAt u.value old d <;> rfl

theorem appended_cons :
    appended (u :: uses) d = (u.option.listedAt u.value d).toList ++ appended uses d := by
  unfold appended
  rw [List.filterMap_cons]
  cases u.option.listedAt u.value d <;> rfl

theorem lookup_assign :
    (o.assign value vs).map.lookup d =
      (o.storedAt value (vs.str d) d).or (vs.map.lookup d) := by
  unfold Opt.assign Opt.storedAt
  by_cases hd : o.dest = d
  · subst hd
    cases o.stored value (vs.str o.dest) <;> cases o.listed value <;> simp
  · cases o.stored value (vs.str o.dest) <;> cases o.listed value <;> simp [hd]

theorem str_assign :
    (o.assign value vs).str d = (o.storedAt value (vs.str d) d).getD (vs.str d) := by
  rw [Values.str, lookup_assign]
  cases o.storedAt value (vs.str d) d <;> rfl

theorem isSetByUser_assign :
    (o.assign value vs).isSetByUser d =
      ((o.storedAt value (vs.str d) d).isSome || vs.isSetByUser d) := by
  unfold Opt.assign Opt.storedAt
  by_cases hd : o.dest = d
  · subst hd
    cases o.stored value (vs.str o.dest) <;> cases o.listed value <;> simp
  · cases o.stored value (vs.str o.dest) <;> cases o.listed value <;> simp [hd]

theorem all_assign :
    (o.assign value vs).all d =
      match o.listedAt value d with
      | some v => some ((vs.all d).getD [] ++ [v])
      | none => vs.all d := by
  unfold Opt.assign Opt.listedAt
  by_cases hd : o.dest = d
  · subst hd
    cases o.stored value (vs.str o.dest) <;> cases o.listed value <;> simp
  · cases o.stored value (vs.str o.dest) <;> cases o.listed value <;> simp [hd]

/-- **The last value that was given counts.** -/
theorem lookup_after :
    (vs.after uses).map.lookup d =
      (givenFrom (vs.str d) uses d).getLast?.or (vs.map.lookup d) := by
  induction uses generalizing vs with
  | nil => rfl
  | cons u uses ih =>
    rw [after_cons, ih, lookup_assign, str_assign, givenFrom_cons, List.getLast?_append,
      Option.or_assoc]
    cases u.option.storedAt u.value (vs.str d) d <;> rfl

theorem isSetByUser_after :
    (vs.after uses).isSetByUser d ↔ givenFrom (vs.str d) uses d ≠ [] ∨ vs.isSetByUser d := by
  induction uses generalizing vs with
  | nil => simp [givenFrom, Values.after]
  | cons u uses ih =>
    rw [after_cons, ih, isSetByUser_assign, str_assign, givenFrom_cons]
    cases u.option.storedAt u.value (vs.str d) d <;> simp

/-- All values that were appended are there, in order. -/
theorem all_after :
    (vs.after uses).all d =
      if appended uses d = [] then vs.all d
      else some ((vs.all d).getD [] ++ appended uses d) := by
  induction uses generalizing vs with
  | nil => rfl
  | cons u uses ih =>
    rw [after_cons, ih, all_assign, appended_cons]
    cases u.option.listedAt u.value d with
    | none => rfl
    | some v => by_cases h : appended uses d = [] <;> simp [h]

end After

/-! ## Options that count, and options that do not -/

section Count

variable {uses : List Use} {d : Bytes}

theorem givenFrom_count {old : Bytes} {k : Nat}
    (h : ∀ u ∈ uses, u.option.dest = d → u.option.action = .count)
    (hold : k + 1 < 2 ^ 31 → strInc old = decimal (k + 1))
    (hn : k + uses.countP (fun u ↦ u.option.dest = d) < 2 ^ 31) :
    givenFrom old uses d =
      (List.range' (k + 1) (uses.countP fun u ↦ u.option.dest = d)).map fun i ↦ decimal i := by
  induction uses generalizing old k with
  | nil => rfl
  | cons u uses ih =>
    have h' : ∀ v ∈ uses, v.option.dest = d → v.option.action = .count := fun v hv ↦
      h v (List.mem_cons_of_mem _ hv)
    by_cases hd : u.option.dest = d
    · have hs : u.option.storedAt u.value old d = some (strInc old) := by
        rw [Opt.storedAt, if_pos hd, Opt.stored, h u List.mem_cons_self hd]
      rw [List.countP_cons_of_pos (by simpa using hd)] at hn ⊢
      have hinc : strInc old = decimal (k + 1) := hold (by omega)
      have hnext (hk : k + 1 + 1 < 2 ^ 31) : strInc (decimal (k + 1)) = decimal (k + 1 + 1) :=
        strInc_decimal hk
      simp only [givenFrom, hs, hinc]
      rw [ih h' hnext (by omega), List.range'_succ]
      rfl
    · have hs : u.option.storedAt u.value old d = none := if_neg hd
      rw [List.countP_cons_of_neg (by simpa using hd)] at hn ⊢
      simp only [givenFrom, hs]
      exact ih h' hold hn

/-- **A counter counts its options**: 1, 2 and so on, up to the end of an `int`. -/
theorem given_count (h : ∀ u ∈ uses, u.option.dest = d → u.option.action = .count)
    (hn : uses.countP (fun u ↦ u.option.dest = d) < 2 ^ 31) :
    given uses d =
      (List.range' 1 (uses.countP fun u ↦ u.option.dest = d)).map fun i ↦ decimal i :=
  givenFrom_count (k := 0) h (fun _ ↦ strInc_nil) (by simpa using hn)

/-- Where nothing is counted, each option stores what it stores. -/
theorem given_eq (h : ∀ u ∈ uses, u.option.action ≠ .count) :
    given uses d = uses.filterMap fun u ↦ u.option.storedAt u.value [] d := by
  have hfrom (old : Bytes) :
      givenFrom old uses d = uses.filterMap fun u ↦ u.option.storedAt u.value [] d := by
    induction uses generalizing old with
    | nil => rfl
    | cons u uses ih =>
      have hs : u.option.storedAt u.value old d = u.option.storedAt u.value [] d := by
        have := h u List.mem_cons_self
        unfold Opt.storedAt Opt.stored
        split
        · split <;> simp_all
        · rfl
      rw [givenFrom_cons, ih fun v hv ↦ h v (List.mem_cons_of_mem _ hv), hs, List.filterMap_cons]
      cases u.option.storedAt u.value [] d <;> rfl
  exact hfrom []

theorem mem_given (h : ∀ u ∈ uses, u.option.action ≠ .count) {v : Bytes} :
    v ∈ given uses d ↔
      ∃ u ∈ uses, u.option.dest = d ∧ u.option.stored u.value [] = some v := by
  simp [given_eq h, Opt.storedAt]

/-- A destination of options that append. -/
theorem appended_eq_given (h : ∀ u ∈ uses, u.option.action ≠ .count)
    (ha : ∀ u ∈ uses, u.option.dest = d → u.option.action = .append) :
    appended uses d = given uses d := by
  rw [given_eq h, appended]
  refine List.filterMap_congr fun u hu ↦ ?_
  unfold Opt.listedAt Opt.storedAt
  split
  · simp [Opt.listed, Opt.stored, ha u hu ‹_›]
  · rfl

end Count

/-! ## The defaults -/

theorem lookup_setDefault (vs : Values) (d d' value : Bytes) :
    (vs.setDefault d value).map.lookup d' =
      (vs.map.lookup d').or (if d = d' then some value else none) := by
  have hs : vs.isSet d = (vs.map.lookup d).isSome := rfl
  unfold Values.setDefault
  rw [hs]
  by_cases hd : d = d'
  · subst hd
    cases h : vs.map.lookup d <;> simp [h]
  · cases vs.map.lookup d <;> simp [hd, Finmap.lookup_insert_of_ne _ (Ne.symm hd)]

/-- The first default that an option has for this destination. -/
def defaultOf (opts : List Opt) (d : Bytes) : Option Bytes :=
  (opts.find? fun o ↦ o.dest = d ∧ o.default ≠ []).map (·.default)

theorem defaultOf_cons (o : Opt) (opts : List Opt) (d : Bytes) :
    defaultOf (o :: opts) d =
      (if o.dest = d ∧ o.default ≠ [] then some o.default else none).or (defaultOf opts d) := by
  unfold defaultOf
  by_cases h : o.dest = d ∧ o.default ≠ []
  · rw [List.find?_cons_of_pos (by simpa using h), if_pos h]
    rfl
  · rw [List.find?_cons_of_neg (by simpa using h), if_neg h]
    rfl

theorem lookup_withDefaults (vs : Values) (opts : List Opt) (d : Bytes) :
    (vs.withDefaults opts).map.lookup d = (vs.map.lookup d).or (defaultOf opts d) := by
  unfold Values.withDefaults
  induction opts generalizing vs with
  | nil => simp [defaultOf]
  | cons o opts ih =>
    rw [List.foldl_cons, ih, defaultOf_cons]
    by_cases h : o.default = []
    · simp [h]
    · simp [h, lookup_setDefault, Option.or_assoc]

theorem lookup_union (m m' : StrMap) (d : Bytes) :
    (m ∪ m').lookup d = (m.lookup d).or (m'.lookup d) := by
  by_cases h : d ∈ m
  · obtain ⟨v, hv⟩ := Option.isSome_iff_exists.1 (Finmap.lookup_isSome.2 h)
    rw [Finmap.lookup_union_left h, hv]
    rfl
  · rw [Finmap.lookup_union_right h, Finmap.lookup_eq_none.2 h]
    rfl

/-- What the defaults leave as it is. -/
theorem withDefaults_frame {α : Type} {f : Values → α}
    (hf : ∀ (vs : Values) (m : StrMap), f { vs with map := m } = f vs) (vs : Values)
    (opts : List Opt) : f (vs.withDefaults opts) = f vs := by
  unfold Values.withDefaults
  induction opts generalizing vs with
  | nil => rfl
  | cons o opts ih =>
    rw [List.foldl_cons, ih]
    unfold Values.setDefault
    split
    · rfl
    · split
      · rfl
      · exact hf ..

/-! ## The whole parser -/

/-- What `parse_args` returns after a command line. -/
def CommandLine.outcome {p : OptionParser} (l : CommandLine p) :
    Except Exit (Values × List Bytes) :=
  (l.result p).map fun p ↦ (p.setDefaults.values, p.leftover)

theorem CommandLine.outcome_eq {p : OptionParser} (l : CommandLine p) :
    l.outcome =
      match l.ending.exit? with
      | some e => .error e
      | none => .ok ((p.after l.uses l.words []).setDefaults.values, p.leftover ++ l.words) := by
  unfold outcome result
  cases l.ending.exit? <;> rfl

namespace OptionParser

variable (p : OptionParser)

/-- The standard options do not depend on the name of the program, nor on its arguments. -/
theorem addStandardOptions_with (prog : Bytes) (v : List Bytes) :
    ({ p with prog, remaining := v } : OptionParser).addStandardOptions =
      { p.addStandardOptions with prog, remaining := v } := by
  have hv : ({ p with prog, remaining := v } : OptionParser).addVersion =
      { p.addVersion with prog, remaining := v } := by
    unfold addVersion
    dsimp only
    split <;> rfl
  have hh (p : OptionParser) : ({ p with prog, remaining := v } : OptionParser).addHelp =
      { p.addHelp with prog, remaining := v } := by
    unfold addHelp
    dsimp only
    split <;> rfl
  rw [addStandardOptions, hv, hh]
  rfl

theorem parseArgs_outcome (prog : Bytes) (l : CommandLine p.addStandardOptions) :
    ({ p with prog } : OptionParser).parseArgs l.args = l.outcome := by
  let q := { p.addStandardOptions with prog, remaining := l.args }
  have hs : SameOptions p.addStandardOptions q := ⟨rfl, rfl, rfl⟩
  have hq : ({ p with prog, remaining := l.args } : OptionParser).addStandardOptions = q :=
    addStandardOptions_with p prog l.args
  have hp : ({ p with prog } : OptionParser).parseArgs l.args =
      (q.parseLoop.map drain).map fun p ↦ (p.setDefaults.values, p.leftover) := by
    rw [← hq]
    unfold parseArgs
    dsimp only
    split <;> simp_all [Except.map]
  rw [hp, CommandLine.parseLoop_args (l.same hs) rfl]
  exact (CommandLine.outcome_eq (l.same hs)).trans (CommandLine.outcome_eq l).symm

theorem parseArgv_outcome (argv0 : Bytes) (l : CommandLine p.addStandardOptions) :
    p.parseArgv argv0 l.args = l.outcome := by
  have hp : p.parseArgv argv0 l.args =
      ({ p with prog := if p.prog = [] then basename argv0 else p.prog } : OptionParser).parseArgs
        l.args := by
    unfold parseArgv
    split <;> rfl
  rw [hp, parseArgs_outcome]

end OptionParser

/-! ## What is in the values -/

/-- The values are those of a command line: the last one that was given, or else a default; all that
were appended; and what was set by the user. -/
structure Values.Tell {p : OptionParser} (vs : Values) (l : CommandLine p) : Prop where
  lookup (d : Bytes) : vs.map.lookup d =
    ((given l.uses d).getLast?.or (p.defaults.lookup d)).or (defaultOf p.opts d)
  all (d : Bytes) : vs.all d = if appended l.uses d = [] then none else some (appended l.uses d)
  isSetByUser (d : Bytes) : vs.isSetByUser d ↔ given l.uses d ≠ []

theorem outcome_tell {p : OptionParser} {l : CommandLine p} (hp : p.values = Values.init)
    {vs : Values} {words : List Bytes} (h : l.outcome = .ok (vs, words)) :
    l.ending.exit? = none ∧ vs.Tell l ∧ words = p.leftover ++ l.words := by
  rw [CommandLine.outcome_eq] at h
  cases he : l.ending.exit? with
  | some e => simp [he] at h
  | none =>
    let q := p.after l.uses l.words []
    have hvs : q.setDefaults.values = vs ∧ p.leftover ++ l.words = words := by simpa [he] using h
    obtain ⟨rfl, rfl⟩ := hvs
    have hq : q.values = Values.init.after l.uses := by rw [← hp]; rfl
    have hl (d : Bytes) : Values.init.map.lookup d = none := rfl
    have hg (d : Bytes) : givenFrom (Values.init.str d) l.uses d = given l.uses d := rfl
    have ha (d : Bytes) : Values.init.all d = none := rfl
    have hs (d : Bytes) : Values.init.isSetByUser d = false := rfl
    refine ⟨rfl, ⟨fun d ↦ ?_, fun d ↦ ?_, fun d ↦ ?_⟩, rfl⟩
    · have h₁ : q.setDefaults.values.map.lookup d =
          ((q.values.map ∪ p.defaults).lookup d).or (defaultOf p.opts d) := lookup_withDefaults ..
      rw [h₁, lookup_union, hq, lookup_after, hg, hl, Option.or_none]
    · have h₁ : q.setDefaults.values.all d = q.values.all d :=
        withDefaults_frame (f := (·.all d)) (fun _ _ ↦ rfl) _ _
      rw [h₁, hq, all_after, ha]
      rfl
    · have h₁ : q.setDefaults.values.isSetByUser d = q.values.isSetByUser d :=
        withDefaults_frame (f := (·.isSetByUser d)) (fun _ _ ↦ rfl) _ _
      rw [h₁, hq, isSetByUser_after, hg, hs]
      simp

end DnsHive.OptParse
