import Mathlib.Data.List.Induction
import LeftPeg.Proofs.Naming

/-!
# What a draft comes to

A grammar is the work of a series of edits: declarations, definitions, and both in one. This module
says what the series comes to in terms of the edits alone, whatever they are, with names declared
again, bodies replaced and bodies given to rules that are not there. `Draft.Builds` is the result
that a reader of the edits would expect, and `Draft.finish_write` says that `Draft.finish` comes to
it and to nothing else.

A draft keeps two things of its edits: the distinct names in the order of their first declaration
(`Draft.namesOf_write`) and the body that each rule was given last (`Draft.body?_write`). What is
wrong with it is asked in a fixed order, so that each draft has one result.
-/

namespace LeftPeg

variable {S M : Type}

/-! ## Results of the items of a list -/

section

variable {α β ε : Type} {f : α → Except ε β} {items : List α} {results : List β}

/-- The results of all items, where each item has one. -/
theorem mapM_eq_ok (hlength : results.length = items.length)
    (h : ∀ (i : Nat) item result, items[i]? = some item → results[i]? = some result →
      f item = .ok result) : items.mapM f = .ok results := by
  induction items generalizing results with
  | nil =>
    obtain rfl := List.length_eq_zero_iff.mp hlength
    rfl
  | cons item rest ih =>
    obtain ⟨result, results, rfl⟩ := List.exists_cons_of_length_eq_add_one hlength
    have hrest := ih (Nat.succ.inj hlength) fun i => h (i + 1)
    rw [List.mapM_cons, h 0 item result rfl rfl, hrest]
    rfl

/-- The error is that of the first item that has no result. -/
theorem mapM_eq_error_iff {error : ε} : items.mapM f = .error error ↔
    ∃ (i : Nat) (item : α), items[i]? = some item ∧ f item = .error error ∧
      ∀ (j : Nat) (item' : α), j < i → items[j]? = some item' → ∃ result, f item' = .ok result := by
  induction items with
  | nil => simp [pure, Except.pure]
  | cons item rest ih =>
    rw [List.mapM_cons]
    cases hitem : f item with
    | error error' =>
      constructor
      · intro h
        cases h
        exact ⟨0, item, rfl, hitem, fun j _ hj => (Nat.not_lt_zero j hj).elim⟩
      · rintro ⟨_ | i, item', hget, herror, hbefore⟩
        · cases hget
          cases hitem.symm.trans herror
          rfl
        · obtain ⟨result, hresult⟩ := hbefore 0 item (Nat.succ_pos i) rfl
          cases hitem.symm.trans hresult
    | ok result =>
      have hcons : (do
          let results ← rest.mapM f
          pure (result :: results) : Except ε (List β)) = .error error ↔
          rest.mapM f = .error error := by
        cases rest.mapM f <;> simp [bind, Except.bind, pure, Except.pure]
      refine hcons.trans (ih.trans ⟨?_, ?_⟩)
      · rintro ⟨i, item', hget, herror, hbefore⟩
        refine ⟨i + 1, item', hget, herror, fun j item'' hj hget' => ?_⟩
        cases j with
        | zero =>
          cases hget'
          exact ⟨result, hitem⟩
        | succ j => exact hbefore j item'' (Nat.lt_of_succ_lt_succ hj) hget'
      · rintro ⟨_ | i, item', hget, herror, hbefore⟩
        · cases hget
          cases hitem.symm.trans herror
        · exact ⟨i, item', hget, herror, fun j item'' hj =>
            hbefore (j + 1) item'' (Nat.succ_lt_succ hj)⟩

end

/-! ## Edits -/

namespace Draft

/-- A step in the writing of a draft. -/
inductive Edit (S M : Type) where
  | declare (name : String)
  | define (rule : RuleId) (body : Body S M)
  /-- Declares a rule and gives it a body. -/
  | add (name : String) (body : Body S M)

namespace Edit

/-- The name that is declared. -/
def name? : Edit S M → Option String
  | .declare name | .add name _ => some name
  | .define .. => none

/-- The draft afterwards. -/
def apply (draft : Draft S M) : Edit S M → Draft S M
  | .declare name => (draft.declare name).2
  | .define rule body => draft.define rule body
  | .add name body => (draft.add name body).2

/-- The rule that a declaration answers with. -/
def answer? (draft : Draft S M) : Edit S M → Option RuleId
  | .declare name => some (draft.declare name).1
  | .define .. => none
  | .add name body => some (draft.add name body).1

end Edit

/-- The draft that a series of edits comes to. -/
def write (edits : List (Edit S M)) : Draft S M :=
  edits.foldl Edit.apply .empty

/-- All names declared, each as often as it was. -/
def declarations (edits : List (Edit S M)) : List String :=
  edits.filterMap Edit.name?

/-- The names declared, in the order in which each was declared first. -/
def names (edits : List (Edit S M)) : List String :=
  (declarations edits).eraseDups

/-- The rule that a name stands for. -/
def ruleNamed (edits : List (Edit S M)) (name : String) : RuleId :=
  ⟨(names edits).idxOf name⟩

/-- An edit that follows others gives a rule that body. What is given to a rule that is not declared
yet is lost. -/
inductive Gives (before : List (Edit S M)) (rule : RuleId) (body : Body S M) : Edit S M → Prop where
  | define (h : rule.index < (names before).length) : Gives before rule body (.define rule body)
  | add {name : String} (h : rule = ruleNamed (before ++ [.add name body]) name) :
      Gives before rule body (.add name body)

/-- The rule was given that body, and none later. -/
def LastBody (edits : List (Edit S M)) (rule : RuleId) (body : Body S M) : Prop :=
  ∃ before edit after, edits = before ++ edit :: after ∧ Gives before rule body edit ∧
    ∀ between later rest body', after = between ++ later :: rest →
      ¬ Gives (before ++ edit :: between) rule body' later

/-- Of all names declared again, that one was the first to be so. -/
def Repeats (declared : List String) (name : String) : Prop :=
  ∃ before after, declared = before ++ name :: after ∧ before.Nodup ∧ name ∈ before

/-- The rule has a body, and the names in its last one are declared. -/
def Sound (edits : List (Edit S M)) (rule : RuleId) : Prop :=
  ∃ body, LastBody edits rule body ∧ ∀ name ∈ body.references, name ∈ declarations edits

/-- What a series of edits comes to as a whole: a grammar, or the first thing that is wrong. A name
declared again goes before all else, and then that there are no rules. Other faults go by the order
of the rules, and in one rule by the order of the names in its last body. -/
inductive Builds (edits : List (Edit S M)) : Except GrammarError (Grammar S M) → Prop where
  | repeated {name : String} (hrepeats : Repeats (declarations edits) name) :
      Builds edits (.error (.duplicateRule name))
  | empty (hempty : declarations edits = []) : Builds edits (.error .emptyGrammar)
  | bodiless {rule : RuleId} {name : String} (hnodup : (declarations edits).Nodup)
      (hname : (names edits)[rule.index]? = some name)
      (hbefore : ∀ earlier : RuleId, earlier.index < rule.index → Sound edits earlier)
      (hbody : ∀ body, ¬ LastBody edits rule body) : Builds edits (.error (.missingBody name))
  | undeclared {rule : RuleId} {owner missing : String} {body : Body S M}
      {before after : List String} (hnodup : (declarations edits).Nodup)
      (howner : (names edits)[rule.index]? = some owner)
      (hbefore : ∀ earlier : RuleId, earlier.index < rule.index → Sound edits earlier)
      (hbody : LastBody edits rule body)
      (hreferences : body.references = before ++ missing :: after)
      (hdeclared : ∀ name ∈ before, name ∈ declarations edits)
      (hmissing : missing ∉ declarations edits) :
      Builds edits (.error (.undefinedRule missing owner))
  | finished {grammar : Grammar S M} (hnodup : (declarations edits).Nodup)
      (hnonempty : declarations edits ≠ [])
      (hnames : grammar.names = names edits)
      (hbodies : ∀ rule body, grammar.body? rule = some body →
        ∃ given, LastBody edits rule given ∧ given.Resolves grammar.find? body) :
      Builds edits (.ok grammar)

variable {edits : List (Edit S M)} {edit : Edit S M} {name : String} {rule : RuleId}
  {body : Body S M}

@[simp] theorem write_concat : write (edits ++ [edit]) = edit.apply (write edits) := by
  simp [write]

@[simp] theorem declarations_concat :
    declarations (edits ++ [edit]) = declarations edits ++ edit.name?.toList := by
  cases hname : edit.name? <;> simp [declarations, hname]

/-- Where a list with one more item is split, the split is at that item or before it. -/
theorem concat_eq_split {α : Type} {items before after : List α} {item last : α}
    (h : items ++ [last] = before ++ item :: after) :
    (items = before ∧ last = item ∧ after = []) ∨
      ∃ after', items = before ++ item :: after' ∧ after = after' ++ [last] := by
  rcases List.eq_nil_or_concat after with rfl | ⟨after', last', rfl⟩
  · obtain ⟨hbefore, hlast⟩ := List.append_inj' h rfl
    exact .inl ⟨hbefore, List.singleton_inj.mp hlast, rfl⟩
  · rw [List.concat_eq_append, ← List.cons_append, ← List.append_assoc] at h
    obtain ⟨hbefore, hlast⟩ := List.append_inj' h rfl
    cases List.singleton_inj.mp hlast
    exact .inr ⟨after', hbefore, List.concat_eq_append⟩

/-! ## The names of a draft -/

/-- The names of the rules declared. -/
def namesOf (draft : Draft S M) : List String :=
  draft.declared.map Declaration.name

theorem find?_eq (draft : Draft S M) (name : String) :
    draft.find? name = (draft.namesOf.idxOf? name).map RuleId.mk := by
  rw [namesOf, List.idxOf?, List.findIdx?_map]
  rfl

theorem isSome_find? {draft : Draft S M} : (draft.find? name).isSome ↔ name ∈ draft.namesOf := by
  simp [find?_eq]

theorem find?_of_mem {draft : Draft S M} (h : name ∈ draft.namesOf) :
    draft.find? name = some ⟨draft.namesOf.idxOf name⟩ := by
  obtain ⟨rule, hrule⟩ := Option.isSome_iff_exists.mp (isSome_find?.mpr h)
  rw [find?_eq] at hrule
  obtain ⟨index, hindex, rfl⟩ := Option.map_eq_some_iff.mp hrule
  rw [find?_eq, List.idxOf_eq_getD_idxOf?, hindex]
  rfl

theorem declare_of_mem {draft : Draft S M} (h : name ∈ draft.namesOf) :
    draft.declare name = (⟨draft.namesOf.idxOf name⟩,
      { draft with duplicate? := draft.duplicate?.or (some name) }) := by
  rw [declare, find?_of_mem h]

theorem declare_of_not_mem {draft : Draft S M} (h : name ∉ draft.namesOf) :
    draft.declare name = (⟨draft.declared.length⟩,
      { draft with declared := draft.declared ++ [⟨name, none⟩] }) := by
  have hnone : draft.find? name = none :=
    Option.not_isSome_iff_eq_none.mp (isSome_find?.not.mpr h)
  rw [declare, hnone]

theorem namesOf_declare_of_mem {draft : Draft S M} (h : name ∈ draft.namesOf) :
    (draft.declare name).2.namesOf = draft.namesOf := by
  rw [declare_of_mem h]
  rfl

theorem namesOf_declare_of_not_mem {draft : Draft S M} (h : name ∉ draft.namesOf) :
    (draft.declare name).2.namesOf = draft.namesOf ++ [name] := by
  rw [declare_of_not_mem h]
  simp [namesOf]

theorem mem_namesOf_declare (draft : Draft S M) (name : String) :
    name ∈ (draft.declare name).2.namesOf := by
  by_cases h : name ∈ draft.namesOf
  · rwa [namesOf_declare_of_mem h]
  · simp [namesOf_declare_of_not_mem h]

@[simp] theorem namesOf_define (draft : Draft S M) (rule : RuleId) (body : Body S M) :
    (draft.define rule body).namesOf = draft.namesOf := by
  refine List.ext_getElem? fun i => ?_
  by_cases h : rule.index = i <;> simp [namesOf, define, h, Function.comp_def]

/-- A declaration answers with the place of the name. -/
theorem declare_fst (draft : Draft S M) (name : String) :
    (draft.declare name).1 = ⟨(draft.declare name).2.namesOf.idxOf name⟩ := by
  by_cases h : name ∈ draft.namesOf
  · rw [namesOf_declare_of_mem h, declare_of_mem h]
  · rw [namesOf_declare_of_not_mem h, declare_of_not_mem h, List.idxOf_append, if_neg h]
    simp [namesOf]

theorem mem_names : name ∈ names edits ↔ name ∈ declarations edits := by
  simp [names]

/-- One more name is kept if it is new. -/
theorem eraseDups_concat (declared : List String) (name : String) :
    (declared ++ [name]).eraseDups =
      if name ∈ declared then declared.eraseDups else declared.eraseDups ++ [name] := by
  rw [List.eraseDups_append]
  by_cases hmem : name ∈ declared <;> simp [List.removeAll, hmem, List.eraseDups_cons]

theorem nodup_names (edits : List (Edit S M)) : (names edits).Nodup := by
  rw [names]
  induction declarations edits using List.reverseRecOn with
  | nil => exact List.nodup_nil
  | append_singleton declared name ih =>
    rw [eraseDups_concat]
    split
    · exact ih
    · rename_i hnew
      rw [← List.concat_eq_append, List.nodup_concat, List.mem_eraseDups]
      exact ⟨hnew, ih⟩

/-- The names of a draft are those declared, in the order in which each was declared first. -/
theorem namesOf_write (edits : List (Edit S M)) : (write edits).namesOf = names edits := by
  induction edits using List.reverseRecOn with
  | nil => rfl
  | append_singleton edits edit ih =>
    have hdeclare (name : String) : ((write edits).declare name).2.namesOf =
        (declarations edits ++ [name]).eraseDups := by
      have hmem : name ∈ (write edits).namesOf ↔ name ∈ declarations edits := by
        rw [ih, mem_names]
      rw [eraseDups_concat, ← names, ← ih]
      split
      · exact namesOf_declare_of_mem (hmem.mpr ‹_›)
      · exact namesOf_declare_of_not_mem (hmem.not.mpr ‹_›)
    rw [names, declarations_concat, write_concat]
    cases edit with
    | declare name => exact hdeclare name
    | define rule body =>
      rw [Edit.apply, namesOf_define, ih, Edit.name?, Option.toList_none, List.append_nil, names]
    | add name body => exact (namesOf_define _ _ body).trans (hdeclare name)

/-- What a declaration answers with is the place of the name among all names so far. -/
theorem answer?_write (edit : Edit S M) (h : edit.name? = some name) :
    edit.answer? (write edits) = some (ruleNamed (edits ++ [edit]) name) := by
  have hname : (write (edits ++ [edit])).namesOf =
      ((write edits).declare name).2.namesOf := by
    rw [write_concat]
    cases edit with
    | declare name' => cases h; rfl
    | define rule body => cases h
    | add name' body =>
      cases h
      exact namesOf_define _ _ body
  rw [ruleNamed, ← namesOf_write, hname, ← declare_fst]
  cases edit with
  | declare name' => cases h; rfl
  | define rule body => cases h
  | add name' body => cases h; rfl

/-! ## Names declared again -/

/-- With one more name, the first repetition is the old one, or else the new name. -/
theorem repeats_concat {declared : List String} {last : String} :
    Repeats (declared ++ [last]) name ↔
      Repeats declared name ∨ (declared.Nodup ∧ last ∈ declared ∧ last = name) := by
  constructor
  · rintro ⟨before, after, hsplit, hnodup, hmem⟩
    obtain ⟨rfl, rfl, rfl⟩ | ⟨after', hsplit, -⟩ := concat_eq_split hsplit
    · exact .inr ⟨hnodup, hmem, rfl⟩
    · exact .inl ⟨before, after', hsplit, hnodup, hmem⟩
  · rintro (⟨before, after, rfl, hnodup, hmem⟩ | ⟨hnodup, hmem, rfl⟩)
    · exact ⟨before, after ++ [last], by simp, hnodup, hmem⟩
    · exact ⟨declared, [], rfl, hnodup, hmem⟩

/-- What a draft keeps of the names declared again is the first one. -/
theorem duplicate?_write (edits : List (Edit S M)) :
    ((write edits).duplicate? = none ↔ (declarations edits).Nodup) ∧
      ∀ name, (write edits).duplicate? = some name ↔ Repeats (declarations edits) name := by
  induction edits using List.reverseRecOn with
  | nil =>
    refine ⟨iff_of_true rfl List.nodup_nil, fun name => iff_of_false (fun h => by cases h) ?_⟩
    rintro ⟨before, after, hsplit, -⟩
    exact List.append_ne_nil_of_right_ne_nil before (List.cons_ne_nil name after) hsplit.symm
  | append_singleton edits edit ih =>
    obtain ⟨ihnone, ihsome⟩ := ih
    have hdeclare (last : String) :
        (((write edits).declare last).2.duplicate? = none ↔
          (declarations edits ++ [last]).Nodup) ∧
        ∀ name, ((write edits).declare last).2.duplicate? = some name ↔
          Repeats (declarations edits ++ [last]) name := by
      have hnodup : (declarations edits ++ [last]).Nodup ↔
          last ∉ declarations edits ∧ (declarations edits).Nodup := by
        rw [← List.concat_eq_append, List.nodup_concat]
      simp only [hnodup, repeats_concat, ← ihnone, ← ihsome]
      by_cases hmem : last ∈ (write edits).namesOf
      · -- The name repeats an earlier one, and that counts if no name did so before.
        rw [declare_of_mem hmem]
        rw [namesOf_write, mem_names] at hmem
        simp only [Option.or_eq_none_iff, Option.or_eq_some_iff]
        simp [hmem]
      · rw [declare_of_not_mem hmem]
        rw [namesOf_write, mem_names] at hmem
        simp [hmem]
    rw [declarations_concat, write_concat]
    cases edit with
    | declare last => exact hdeclare last
    | define rule body => simpa [Edit.apply, Edit.name?, define] using ⟨ihnone, ihsome⟩
    | add last body => exact hdeclare last

/-! ## Bodies given -/

/-- The body that a rule has. -/
def body? (draft : Draft S M) (rule : RuleId) : Option (Body S M) :=
  draft.declared[rule.index]?.bind Declaration.body?

theorem body?_declare (draft : Draft S M) (name : String) (rule : RuleId) :
    (draft.declare name).2.body? rule = draft.body? rule := by
  by_cases h : name ∈ draft.namesOf
  · rw [declare_of_mem h]
    rfl
  · rw [declare_of_not_mem h, body?, body?, List.getElem?_append]
    split
    · rfl
    · rename_i hlength
      rw [List.getElem?_eq_none (Nat.le_of_not_lt hlength)]
      cases rule.index - draft.declared.length <;> rfl

theorem body?_define_self (draft : Draft S M) (rule : RuleId) (body : Body S M)
    (h : rule.index < draft.namesOf.length) :
    (draft.define rule body).body? rule = some body := by
  rw [namesOf, List.length_map] at h
  simp [body?, define, List.getElem?_eq_getElem h]

theorem body?_define_of_ne (draft : Draft S M) {rule rule' : RuleId} (body : Body S M)
    (h : rule ≠ rule') : (draft.define rule body).body? rule' = draft.body? rule' := by
  have hindex : rule.index ≠ rule'.index := fun hindex => h (congrArg RuleId.mk hindex)
  simp [body?, define, hindex]

theorem body?_eq_none {draft : Draft S M} (h : draft.namesOf.length ≤ rule.index) :
    draft.body? rule = none := by
  rw [namesOf, List.length_map] at h
  rw [body?, List.getElem?_eq_none h]
  rfl

/-- After one more edit, the last body is the one that it gives, or else the old one. -/
theorem lastBody_concat : LastBody (edits ++ [edit]) rule body ↔
    Gives edits rule body edit ∨
      ((∀ body', ¬ Gives edits rule body' edit) ∧ LastBody edits rule body) := by
  constructor
  · rintro ⟨before, edit', after, hsplit, hgives, hlater⟩
    obtain ⟨rfl, rfl, rfl⟩ | ⟨after', rfl, rfl⟩ := concat_eq_split hsplit
    · exact .inl hgives
    · refine .inr ⟨fun body' => hlater after' edit [] body' rfl,
        before, edit', after', rfl, hgives, fun between later rest body' hafter => ?_⟩
      exact hlater between later (rest ++ [edit]) body' (by simp [hafter])
  · rintro (hgives | ⟨hnone, before, edit', after, rfl, hgives, hlater⟩)
    · exact ⟨edits, edit, [], rfl, hgives, fun between later rest body' hafter => by
        simp at hafter⟩
    · refine ⟨before, edit', after ++ [edit], by simp, hgives,
        fun between later rest body' hafter => ?_⟩
      -- Of the edits that follow, the last is the new one and the others followed before.
      obtain ⟨rfl, rfl, rfl⟩ | ⟨rest', rfl, rfl⟩ := concat_eq_split hafter
      · exact hnone body'
      · exact hlater between later rest' body' rfl

theorem not_gives_declare : ¬ Gives edits rule body (.declare name) := by
  rintro ⟨⟩

theorem gives_define_iff {target : RuleId} {body' : Body S M} :
    Gives edits rule body' (.define target body) ↔
      rule = target ∧ rule.index < (names edits).length ∧ body' = body := by
  constructor
  · rintro ⟨h⟩
    exact ⟨rfl, h, rfl⟩
  · rintro ⟨rfl, h, rfl⟩
    exact .define h

theorem gives_add_iff {body' : Body S M} : Gives edits rule body' (.add name body) ↔
    rule = ((write edits).declare name).1 ∧ body' = body := by
  have hname : ruleNamed (edits ++ [.add name body]) name = ((write edits).declare name).1 :=
    (Option.some_inj.mp (answer?_write (.add name body) rfl)).symm
  constructor
  · rintro (_ | ⟨h⟩)
    exact ⟨h.trans hname, rfl⟩
  · rintro ⟨rfl, rfl⟩
    exact .add hname.symm

/-- What a rule is given is its body afterwards, and where it is given nothing it keeps its own. -/
theorem body?_apply : (edit.apply (write edits)).body? rule = some body ↔
    Gives edits rule body edit ∨
      ((∀ body', ¬ Gives edits rule body' edit) ∧ (write edits).body? rule = some body) := by
  cases edit with
  | declare name =>
    rw [Edit.apply, body?_declare]
    simp [not_gives_declare]
  | define target body' =>
    rw [Edit.apply]
    simp only [gives_define_iff, ← namesOf_write]
    by_cases htarget : rule = target
    · cases htarget
      by_cases hlength : rule.index < (write edits).namesOf.length
      · rw [body?_define_self _ _ _ hlength]
        simp [hlength, eq_comm]
      · -- The rule is not there, so the body is lost.
        have hnone (draft : Draft S M) (h : draft.namesOf = (write edits).namesOf) :
            draft.body? rule = none := body?_eq_none (h ▸ Nat.le_of_not_lt hlength)
        rw [hnone _ (namesOf_define _ _ _), hnone _ rfl]
        simp [hlength]
    · rw [body?_define_of_ne _ _ (Ne.symm htarget)]
      simp [htarget]
  | add name body' =>
    rw [Edit.apply, add]
    simp only [gives_add_iff]
    by_cases hrule : rule = ((write edits).declare name).1
    · have hlength : rule.index < ((write edits).declare name).2.namesOf.length := by
        rw [hrule, declare_fst]
        exact List.idxOf_lt_length_of_mem (mem_namesOf_declare _ name)
      rw [← hrule, body?_define_self _ _ _ hlength]
      simp [eq_comm]
    · rw [body?_define_of_ne _ _ (Ne.symm hrule), body?_declare]
      simp [hrule]

/-- What a draft keeps of the bodies given to a rule is the last one. -/
theorem body?_write (edits : List (Edit S M)) (rule : RuleId) (body : Body S M) :
    (write edits).body? rule = some body ↔ LastBody edits rule body := by
  induction edits using List.reverseRecOn with
  | nil =>
    refine iff_of_false (fun h => by cases h) ?_
    rintro ⟨before, edit, after, hsplit, -⟩
    exact List.append_ne_nil_of_right_ne_nil before (List.cons_ne_nil edit after) hsplit.symm
  | append_singleton edits edit ih => rw [write_concat, body?_apply, lastBody_concat, ih]

/-! ## Finished rules -/

section

variable {draft : Draft S M} {declaration : Declaration S M}

theorem finishRule_bodiless (hbody : declaration.body? = none) :
    draft.finishRule declaration = .error (.missingBody declaration.name) := by
  rw [finishRule, hbody]

theorem finishRule_linked (hbody : declaration.body? = some body)
    (hfound : ∀ name ∈ body.references, (draft.find? name).isSome) :
    draft.finishRule declaration = .ok ⟨declaration.name, body.link draft.find?⟩ := by
  have hnone : body.references.find? (fun name => (draft.find? name).isNone) = none :=
    List.find?_eq_none.mpr fun name hname => by
      simp [Option.isSome_iff_ne_none.mp (hfound name hname)]
  rw [finishRule, hbody]
  dsimp only
  rw [hnone]

theorem finishRule_undeclared {missing : String} {before after : List String}
    (hbody : declaration.body? = some body)
    (hreferences : body.references = before ++ missing :: after)
    (hfound : ∀ name ∈ before, (draft.find? name).isSome) (hmissing : draft.find? missing = none) :
    draft.finishRule declaration = .error (.undefinedRule missing declaration.name) := by
  have hsome : body.references.find? (fun name => (draft.find? name).isNone) = some missing := by
    refine List.find?_eq_some_iff_append.mpr ⟨by rw [hmissing]; rfl, before, after, hreferences, ?_⟩
    intro name hname
    rw [Bool.not_eq_true', Option.isNone_eq_false_iff]
    exact hfound name hname
  rw [finishRule, hbody]
  dsimp only
  rw [hsome]

/-- The names in a body all stand for rules, or there is a first one that does not. -/
theorem found_or_missing (draft : Draft S M) (body : Body S M) :
    (∀ name ∈ body.references, (draft.find? name).isSome) ∨
      ∃ before missing after, body.references = before ++ missing :: after ∧
        (∀ name ∈ before, (draft.find? name).isSome) ∧ draft.find? missing = none := by
  cases hfind : body.references.find? fun name => (draft.find? name).isNone with
  | none =>
    refine .inl fun name hname => ?_
    have hname := List.find?_eq_none.mp hfind name hname
    rwa [Bool.not_eq_true, Option.isNone_eq_false_iff] at hname
  | some missing =>
    obtain ⟨hmissing, before, after, hsplit, hbefore⟩ := List.find?_eq_some_iff_append.mp hfind
    refine .inr ⟨before, missing, after, hsplit, fun name hname => ?_,
      Option.isNone_iff_eq_none.mp hmissing⟩
    have hname := hbefore name hname
    rwa [Bool.not_eq_true', Option.isNone_eq_false_iff] at hname

/-- A finished rule is one that has a body in which all names stand for rules. -/
theorem finishRule_eq_ok_iff {finished : Rule S M} : draft.finishRule declaration = .ok finished ↔
    ∃ body, declaration.body? = some body ∧
      (∀ name ∈ body.references, (draft.find? name).isSome) ∧
      finished = ⟨declaration.name, body.link draft.find?⟩ := by
  constructor
  · intro h
    cases hbody : declaration.body? with
    | none => cases (finishRule_bodiless hbody).symm.trans h
    | some body =>
      rcases draft.found_or_missing body with hfound | ⟨_, _, _, hsplit, hbefore, hmissing⟩
      · cases (finishRule_linked hbody hfound).symm.trans h
        exact ⟨body, rfl, hfound, rfl⟩
      · cases (finishRule_undeclared hbody hsplit hbefore hmissing).symm.trans h
  · rintro ⟨body, hbody, hfound, rfl⟩
    exact finishRule_linked hbody hfound

end

/-! ## Finished drafts -/

/-- The declaration in a place has the name and the last body of its rule. -/
theorem declared_write (rule : RuleId) {declaration : Declaration S M}
    (h : (write edits).declared[rule.index]? = some declaration) :
    (names edits)[rule.index]? = some declaration.name ∧
      ∀ body, declaration.body? = some body ↔ LastBody edits rule body := by
  constructor
  · rw [← namesOf_write, namesOf, List.getElem?_map, h]
    rfl
  · intro body
    rw [← body?_write, body?, h]
    rfl

theorem isSome_find?_write : ((write edits).find? name).isSome ↔ name ∈ declarations edits := by
  rw [isSome_find?, namesOf_write, mem_names]

theorem find?_write_eq_none : (write edits).find? name = none ↔ name ∉ declarations edits := by
  rw [← isSome_find?_write, Option.not_isSome_iff_eq_none]

/-- Sound rules are those that are finished. -/
theorem sound_iff (rule : RuleId) {declaration : Declaration S M}
    (h : (write edits).declared[rule.index]? = some declaration) :
    Sound edits rule ↔ ∃ finished, (write edits).finishRule declaration = .ok finished := by
  obtain ⟨-, hbody⟩ := declared_write rule h
  simp only [Sound, finishRule_eq_ok_iff, hbody, isSome_find?_write]
  constructor
  · rintro ⟨body, hlast, hdeclared⟩
    exact ⟨_, body, hlast, hdeclared, rfl⟩
  · rintro ⟨_, body, hlast, hdeclared, -⟩
    exact ⟨body, hlast, hdeclared⟩

theorem declared_write_eq_nil : (write edits).declared = [] ↔ declarations edits = [] := by
  have hnames : (write edits).declared = [] ↔ names edits = [] := by
    rw [← namesOf_write, namesOf, List.map_eq_nil_iff]
  simp only [hnames, List.eq_nil_iff_forall_not_mem, mem_names]

theorem finish_of_nodup (hnodup : (declarations edits).Nodup)
    (hnonempty : declarations edits ≠ []) : (write edits).finish =
      ((write edits).declared.mapM (write edits).finishRule).map Grammar.mk := by
  have hdeclared : ¬ (write edits).declared.isEmpty := by
    rwa [List.isEmpty_iff, declared_write_eq_nil]
  rw [finish, (duplicate?_write edits).1.mpr hnodup]
  exact if_neg hdeclared

/-- The first rule that is not sound is what is wrong with the draft. -/
theorem finish_of_error (hnodup : (declarations edits).Nodup)
    {declaration : Declaration S M} {error : GrammarError}
    (hget : (write edits).declared[rule.index]? = some declaration)
    (hbefore : ∀ earlier : RuleId, earlier.index < rule.index → Sound edits earlier)
    (herror : (write edits).finishRule declaration = .error error) :
    (write edits).finish = .error error := by
  have hnonempty : declarations edits ≠ [] := by
    rw [Ne, ← declared_write_eq_nil]
    exact List.ne_nil_of_mem (List.mem_of_getElem? hget)
  have hmap : (write edits).declared.mapM (write edits).finishRule = .error error :=
    mapM_eq_error_iff.mpr ⟨rule.index, declaration, hget, herror,
      fun j _ hj hget' => (sound_iff ⟨j⟩ hget').mp (hbefore ⟨j⟩ hj)⟩
  rw [finish_of_nodup hnodup hnonempty, hmap]
  rfl

/-- A rule and its declaration have the same place. -/
theorem exists_declared (h : (names edits)[rule.index]? = some name) :
    ∃ declaration, (write edits).declared[rule.index]? = some declaration ∧
      declaration.name = name := by
  rwa [← namesOf_write, namesOf, List.getElem?_map, Option.map_eq_some_iff] at h

/-- Where a grammar has the names of the draft, they stand for the same rules. -/
theorem find?_eq_find? {grammar : Grammar S M}
    (hnames : grammar.names = names edits) : grammar.find? = (write edits).find? := by
  funext name
  rw [find?_eq, namesOf_write, ← hnames, ← grammar.find?_eq]

/-- What is wrong with the first rule that is not sound is what the edits call for. -/
theorem builds_of_error (rule : RuleId) (hnodup : (declarations edits).Nodup)
    {declaration : Declaration S M} {error : GrammarError}
    (hget : (write edits).declared[rule.index]? = some declaration)
    (hbefore : ∀ earlier : RuleId, earlier.index < rule.index → Sound edits earlier)
    (herror : (write edits).finishRule declaration = .error error) :
    Builds edits (.error error) := by
  obtain ⟨hname, hbody⟩ := declared_write rule hget
  cases hbody? : declaration.body? with
  | none =>
    cases (finishRule_bodiless hbody?).symm.trans herror
    refine .bodiless hnodup hname hbefore fun body hlast => ?_
    cases hbody?.symm.trans ((hbody body).mpr hlast)
  | some body =>
    rcases (write edits).found_or_missing body with
      hfound | ⟨before, missing, after, hsplit, hfound, hmissing⟩
    · cases (finishRule_linked hbody? hfound).symm.trans herror
    · cases (finishRule_undeclared hbody? hsplit hfound hmissing).symm.trans herror
      exact .undeclared hnodup hname hbefore ((hbody body).mp hbody?) hsplit
        (fun name hname => isSome_find?_write.mp (hfound name hname))
        (find?_write_eq_none.mp hmissing)

/-- Where all rules are sound, their finished forms are what the edits call for. -/
theorem builds_of_rules (hnodup : (declarations edits).Nodup) (hnonempty : declarations edits ≠ [])
    {rules : List (Rule S M)}
    (hrules : (write edits).declared.mapM (write edits).finishRule = .ok rules) :
    Builds edits (.ok ⟨rules⟩) := by
  obtain ⟨hlength, hresults⟩ := getElem?_of_mapM_ok hrules
  -- A rule has the name and the last body of the declaration in its place.
  have hfinished (rule : RuleId) (finished : Rule S M)
      (hget : rules[rule.index]? = some finished) :
      (names edits)[rule.index]? = some finished.name ∧ ∃ given,
        LastBody edits rule given ∧ given.Resolves (write edits).find? finished.body := by
    obtain ⟨declaration, hdeclaration, hfinish⟩ := hresults rule.index finished hget
    obtain ⟨hname, hbody⟩ := declared_write rule hdeclaration
    obtain ⟨body, hbody?, hfound, rfl⟩ := finishRule_eq_ok_iff.mp hfinish
    exact ⟨hname, body, (hbody body).mp hbody?, Body.resolves_link hfound⟩
  have hnames : rules.map Rule.name = names edits := by
    refine List.ext_getElem? fun i => ?_
    rw [List.getElem?_map]
    cases hget : rules[i]? with
    | some finished => exact (hfinished ⟨i⟩ finished hget).1.symm
    | none =>
      rw [List.getElem?_eq_none_iff, hlength] at hget
      refine (List.getElem?_eq_none ?_).symm
      rwa [← namesOf_write, namesOf, List.length_map]
  refine .finished hnodup hnonempty hnames fun rule body hbody => ?_
  obtain ⟨finished, hget, rfl⟩ := Option.map_eq_some_iff.mp hbody
  rw [find?_eq_find? hnames]
  exact (hfinished rule finished hget).2

/-- The result of a draft is one that the edits call for. -/
theorem builds_finish (edits : List (Edit S M)) : Builds edits (write edits).finish := by
  obtain ⟨hnone, hsome⟩ := duplicate?_write edits
  cases hduplicate : (write edits).duplicate? with
  | some name =>
    rw [finish, hduplicate]
    exact .repeated ((hsome name).mp hduplicate)
  | none =>
    have hnodup := hnone.mp hduplicate
    by_cases hempty : declarations edits = []
    · rw [finish, hduplicate, declared_write_eq_nil.mpr hempty]
      exact .empty hempty
    · rw [finish_of_nodup hnodup hempty]
      cases hrules : (write edits).declared.mapM (write edits).finishRule with
      | ok rules => exact builds_of_rules hnodup hempty hrules
      | error error =>
        obtain ⟨index, declaration, hget, herror, hbefore⟩ := mapM_eq_error_iff.mp hrules
        refine builds_of_error ⟨index⟩ hnodup hget (fun earlier hearlier => ?_) herror
        have hlength := (List.getElem?_eq_some_iff.mp hget).1
        have hget' := List.getElem?_eq_getElem (Nat.lt_trans hearlier hlength)
        exact (sound_iff earlier hget').mpr (hbefore _ _ hearlier hget')

/-- The edits call for no other result. -/
theorem Builds.finish_eq {result : Except GrammarError (Grammar S M)} (h : Builds edits result) :
    (write edits).finish = result := by
  cases h with
  | repeated hrepeats => rw [finish, ((duplicate?_write edits).2 _).mpr hrepeats]
  | empty hempty =>
    have hnodup : (declarations edits).Nodup := hempty ▸ List.nodup_nil
    rw [finish, (duplicate?_write edits).1.mpr hnodup, declared_write_eq_nil.mpr hempty]
    rfl
  | bodiless hnodup hname hbefore hbody =>
    obtain ⟨declaration, hget, rfl⟩ := exists_declared hname
    refine finish_of_error hnodup hget hbefore (finishRule_bodiless ?_)
    exact Option.eq_none_iff_forall_ne_some.mpr fun body hbody? =>
      hbody body (((declared_write _ hget).2 body).mp hbody?)
  | undeclared hnodup howner hbefore hbody hreferences hdeclared hmissing =>
    obtain ⟨declaration, hget, rfl⟩ := exists_declared howner
    refine finish_of_error hnodup hget hbefore (finishRule_undeclared
      (((declared_write _ hget).2 _).mpr hbody) hreferences ?_ (find?_write_eq_none.mpr hmissing))
    exact fun name hname => isSome_find?_write.mpr (hdeclared name hname)
  | @finished grammar hnodup hnonempty hnames hbodies =>
    have hlength : grammar.rules.length = (write edits).declared.length := by
      rw [← List.length_map Rule.name, ← Grammar.names, hnames, ← namesOf_write, namesOf,
        List.length_map]
    have hrules : (write edits).declared.mapM (write edits).finishRule = .ok grammar.rules := by
      refine mapM_eq_ok hlength fun i declaration finished hget hget' => ?_
      obtain ⟨hname, hbody⟩ := declared_write ⟨i⟩ hget
      obtain ⟨given, hlast, hresolves⟩ := hbodies ⟨i⟩ finished.body (by
        rw [Grammar.body?, hget']
        rfl)
      rw [find?_eq_find? hnames] at hresolves
      rw [finishRule_linked ((hbody given).mpr hlast) hresolves.isSome, hresolves.link_eq]
      rw [← hnames, Grammar.names, List.getElem?_map, hget'] at hname
      rw [← Option.some_inj.mp hname]
    rw [finish_of_nodup hnodup hnonempty, hrules]
    rfl

/-- **The result of a draft, from its edits.** A declaration answers with the place of its name
among the distinct names in the order of their first declaration. The draft comes to the one result
that the edits call for. In a grammar that is finished, places and names of rules answer to each
other, and no body has a name left anywhere. -/
theorem finish_write (edits : List (Edit S M)) :
    (∀ edit name, edit.name? = some name →
      edit.answer? (write edits) = some (ruleNamed (edits ++ [edit]) name)) ∧
    (∀ result, (write edits).finish = result ↔ Builds edits result) ∧
    ∀ grammar, (write edits).finish = .ok grammar →
      (∀ rule : RuleId, rule.index < grammar.size →
        ∃ name, grammar.name? rule = some name ∧ grammar.find? name = some rule) ∧
      (∀ name ∈ declarations edits,
        ∃ rule, grammar.find? name = some rule ∧ grammar.name? rule = some name) ∧
      ∀ rule form name, grammar.body? rule = some (.expression form) →
        ¬ Expression.Part (.reference name) form := by
  refine ⟨fun edit name => answer?_write edit, fun result => ⟨?_, Builds.finish_eq⟩, ?_⟩
  · rintro rfl
    exact builds_finish edits
  intro grammar hfinish
  have hbuilds := hfinish ▸ builds_finish edits
  cases hbuilds with
  | finished hnodup hnonempty hnames hbodies =>
    have hdistinct : grammar.names.Nodup := hnames ▸ nodup_names edits
    refine ⟨fun rule hrule => ?_, fun name hname => ?_, fun rule form name hbody => ?_⟩
    · have hname : grammar.name? rule = some grammar.rules[rule.index].name := by
        rw [Grammar.name?, List.getElem?_eq_getElem hrule]
        rfl
      exact ⟨_, hname, Grammar.find?_of_name? hdistinct hname⟩
    · rw [← mem_names, ← hnames, ← Grammar.isSome_find?] at hname
      obtain ⟨rule, hrule⟩ := Option.isSome_iff_exists.mp hname
      exact ⟨rule, hrule, Grammar.name?_of_find? hrule⟩
    · obtain ⟨given, -, hresolves⟩ := hbodies rule _ hbody
      cases hresolves with
      | expression hresolves => exact hresolves.not_part name

/-- A rule with a body that was replaced, by one that mentions a rule declared later, and a body for
a rule that is not there. -/
def forward : List (Edit Char Unit) :=
  [.declare "start", .define ⟨0⟩ (.expression .any), .define ⟨1⟩ (.expression .any),
    .add "letter" (.expression (Expression.text "l")),
    .define ⟨0⟩ (.expression (.lookahead (.reference "letter") true))]

theorem finish_write_forward :
    (Edit.declare "letter").answer? (write forward) = some ⟨1⟩ ∧
    ∃ grammar, (write forward).finish = .ok grammar ∧ Builds forward (.ok grammar) ∧
      grammar.body? ⟨0⟩ = some (.expression (.lookahead (.rule ⟨1⟩) true)) ∧
      (∃ name, grammar.name? ⟨1⟩ = some name ∧ grammar.find? name = some ⟨1⟩) ∧
      (∃ rule, grammar.find? "start" = some rule ∧ grammar.name? rule = some "start") ∧
      ¬ Expression.Part (.reference "letter") (.lookahead (.rule ⟨1⟩) true : Expression Char) := by
  obtain ⟨hanswer, hresult, hnames⟩ := finish_write forward
  have hfinish : (write forward).finish = .ok
      ⟨[⟨"start", .expression (.lookahead (.rule ⟨1⟩) true)⟩,
        ⟨"letter", .expression (Expression.text "l")⟩]⟩ := rfl
  obtain ⟨hplaces, hdeclared, hleft⟩ := hnames _ hfinish
  exact ⟨hanswer (.declare "letter") "letter" rfl, _, hfinish, (hresult _).mp hfinish, rfl,
    hplaces ⟨1⟩ (by decide), hdeclared "start" (by decide), hleft ⟨0⟩ _ _ rfl⟩

end Draft

end LeftPeg
