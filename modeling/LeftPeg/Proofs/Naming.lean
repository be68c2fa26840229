import Mathlib.Data.List.Nodup
import LeftPeg.Proofs.Resolved

/-!
# Names and the rules they stand for

What it is to replace each name of an expression by a rule, and nothing else, is said by
`Expression.Resolves`; it is what `Expression.link` does where all names stand for rules. In a
grammar a name stands for a place of its table, and `Grammar.name?` and `Grammar.find?` are inverse
to each other where no two rules have one name.
-/

namespace LeftPeg

variable {S M : Type}

/-! ## Expressions -/

namespace Expression

/-- The first expression is the second one or stands somewhere inside it. -/
inductive Part (part : Expression S) : Expression S → Prop where
  | self : Part part part
  | sequence {items : List (Expression S)} {item : Expression S} (hmem : item ∈ items)
      (h : Part part item) : Part part (.sequence items)
  | choice {alternatives : List (Expression S)} {alternative : Expression S}
      (hmem : alternative ∈ alternatives) (h : Part part alternative) :
      Part part (.choice alternatives)
  | repetition {item : Expression S} {atLeast : Nat} {atMost : Option Nat} (h : Part part item) :
      Part part (.repetition item atLeast atMost)
  | lookahead {item : Expression S} {positive : Bool} (h : Part part item) :
      Part part (.lookahead item positive)
  | tagged {tag : String} {item : Expression S} (h : Part part item) :
      Part part (.tagged tag item)

theorem mem_referencesOfAll {name : String} {items : List (Expression S)} :
    name ∈ referencesOfAll items ↔ ∃ item ∈ items, name ∈ item.references := by
  induction items with
  | nil => simp [referencesOfAll]
  | cons item rest ih => simp [referencesOfAll, ih]

/-- The names mentioned in an expression include all that stand somewhere inside it. -/
theorem Part.mem_references {name : String} {e : Expression S} (h : Part (.reference name) e) :
    name ∈ e.references := by
  induction h with
  | self => exact List.mem_singleton.mpr rfl
  | sequence hmem h ih => exact mem_referencesOfAll.mpr ⟨_, hmem, ih⟩
  | choice hmem h ih => exact mem_referencesOfAll.mpr ⟨_, hmem, ih⟩
  | repetition h ih => exact ih
  | lookahead h ih => exact ih
  | tagged h ih => exact ih

mutual

/-- The second expression is the first one with each name replaced by the rule it stands for, and
nothing else changed. -/
inductive Resolves (find? : String → Option RuleId) : Expression S → Expression S → Prop where
  | reference {name : String} {rule : RuleId} (h : find? name = some rule) :
      Resolves find? (.reference name) (.rule rule)
  | literal {symbols : List S} {description : String} :
      Resolves find? (.literal symbols description) (.literal symbols description)
  | satisfying {test : S → Bool} {description : String} :
      Resolves find? (.satisfying test description) (.satisfying test description)
  | any : Resolves find? .any .any
  | rule {target : RuleId} : Resolves find? (.rule target) (.rule target)
  | sequence {items items' : List (Expression S)} (h : ResolvesAll find? items items') :
      Resolves find? (.sequence items) (.sequence items')
  | choice {alternatives alternatives' : List (Expression S)}
      (h : ResolvesAll find? alternatives alternatives') :
      Resolves find? (.choice alternatives) (.choice alternatives')
  | repetition {item item' : Expression S} {atLeast : Nat} {atMost : Option Nat}
      (h : Resolves find? item item') :
      Resolves find? (.repetition item atLeast atMost) (.repetition item' atLeast atMost)
  | lookahead {item item' : Expression S} {positive : Bool} (h : Resolves find? item item') :
      Resolves find? (.lookahead item positive) (.lookahead item' positive)
  | tagged {tag : String} {item item' : Expression S} (h : Resolves find? item item') :
      Resolves find? (.tagged tag item) (.tagged tag item')

/-- So in each expression of a list. -/
inductive ResolvesAll (find? : String → Option RuleId) :
    List (Expression S) → List (Expression S) → Prop where
  | nil : ResolvesAll find? [] []
  | cons {item item' : Expression S} {rest rest' : List (Expression S)}
      (hitem : Resolves find? item item') (hrest : ResolvesAll find? rest rest') :
      ResolvesAll find? (item :: rest) (item' :: rest')

end

variable {find? : String → Option RuleId}

mutual

/-- Linking resolves all names if each of them stands for a rule. -/
theorem resolves_link (e : Expression S) (hfind : ∀ name ∈ e.references, (find? name).isSome) :
    Resolves find? e (e.link find?) := by
  cases e with
  | reference name =>
    obtain ⟨rule, hrule⟩ := Option.isSome_iff_exists.mp (hfind name List.mem_cons_self)
    rw [link, hrule]
    exact .reference hrule
  | literal symbols description => exact .literal
  | satisfying test description => exact .satisfying
  | any => exact .any
  | rule target => exact .rule
  | sequence items => exact .sequence (resolvesAll_linkAll items hfind)
  | choice alternatives => exact .choice (resolvesAll_linkAll alternatives hfind)
  | repetition item atLeast atMost => exact .repetition (resolves_link item hfind)
  | lookahead item positive => exact .lookahead (resolves_link item hfind)
  | tagged tag item => exact .tagged (resolves_link item hfind)

theorem resolvesAll_linkAll (items : List (Expression S))
    (hfind : ∀ name ∈ referencesOfAll items, (find? name).isSome) :
    ResolvesAll find? items (linkAll find? items) := by
  cases items with
  | nil => exact .nil
  | cons item rest =>
    exact .cons (resolves_link item fun name hname => hfind name (List.mem_append_left _ hname))
      (resolvesAll_linkAll rest fun name hname => hfind name (List.mem_append_right _ hname))

end

mutual

/-- What an expression is resolved to is what it is linked to. -/
theorem Resolves.link_eq {e e' : Expression S} : Resolves find? e e' → e.link find? = e'
  | .reference h => by rw [link, h]; rfl
  | .literal => rfl
  | .satisfying => rfl
  | .any => rfl
  | .rule => rfl
  | .sequence h => congrArg Expression.sequence h.linkAll_eq
  | .choice h => congrArg Expression.choice h.linkAll_eq
  | .repetition h => by rw [link, h.link_eq]
  | .lookahead h => by rw [link, h.link_eq]
  | .tagged h => by rw [link, h.link_eq]

theorem ResolvesAll.linkAll_eq {items items' : List (Expression S)} :
    ResolvesAll find? items items' → linkAll find? items = items'
  | .nil => rfl
  | .cons hitem hrest => by rw [linkAll, hitem.link_eq, hrest.linkAll_eq]

end

mutual

/-- All names of an expression that is resolved stand for rules. -/
theorem Resolves.isSome {e e' : Expression S} :
    Resolves find? e e' → ∀ name ∈ e.references, (find? name).isSome
  | .reference h => by
    intro name hname
    rw [List.mem_singleton.mp hname, h]
    rfl
  | .literal | .satisfying | .any | .rule => fun _ hname => nomatch hname
  | .sequence h | .choice h => h.isSome
  | .repetition h | .lookahead h | .tagged h => h.isSome

theorem ResolvesAll.isSome {items items' : List (Expression S)} :
    ResolvesAll find? items items' → ∀ name ∈ referencesOfAll items, (find? name).isSome
  | .nil => fun _ hname => nomatch hname
  | .cons hitem hrest => fun name hname =>
    (List.mem_append.mp hname).elim (hitem.isSome name) (hrest.isSome name)

end

/-- No name is left in what an expression is resolved to, at any depth. -/
theorem Resolves.not_part {e e' : Expression S} (h : Resolves find? e e') (name : String) :
    ¬ Part (.reference name) e' := by
  intro hpart
  have hmem := hpart.mem_references
  rw [← h.link_eq, references_link e h.isSome] at hmem
  cases hmem

end Expression

namespace Body

/-- The second body is the first one with each name replaced by the rule it stands for. Programs
mention no names and stay as they are. -/
inductive Resolves (find? : String → Option RuleId) : Body S M → Body S M → Prop where
  | expression {form form' : Expression S} (h : form.Resolves find? form') :
      Resolves find? (.expression form) (.expression form')
  | procedure {program : Procedure S Tree M (Outcome Tree)} :
      Resolves find? (.procedure program) (.procedure program)

variable {find? : String → Option RuleId} {body body' : Body S M}

theorem resolves_link (hfind : ∀ name ∈ body.references, (find? name).isSome) :
    body.Resolves find? (body.link find?) := by
  cases body with
  | expression form => exact .expression (Expression.resolves_link form hfind)
  | procedure program => exact .procedure

theorem Resolves.link_eq (h : body.Resolves find? body') : body.link find? = body' := by
  cases h with
  | expression h => exact congrArg Body.expression h.link_eq
  | procedure => rfl

theorem Resolves.isSome (h : body.Resolves find? body') :
    ∀ name ∈ body.references, (find? name).isSome := by
  cases h with
  | expression h => exact h.isSome
  | procedure => exact fun _ hname => nomatch hname

end Body

/-! ## Names and places in a grammar -/

namespace Grammar

variable {grammar : Grammar S M} {name : String} {rule : RuleId}

/-- The names of the rules, in the order of their places. -/
def names (grammar : Grammar S M) : List String :=
  grammar.rules.map Rule.name

theorem name?_eq (grammar : Grammar S M) (rule : RuleId) :
    grammar.name? rule = grammar.names[rule.index]? := by
  rw [name?, names, List.getElem?_map]

theorem find?_eq (grammar : Grammar S M) (name : String) :
    grammar.find? name = (grammar.names.idxOf? name).map RuleId.mk := by
  rw [find?, names, List.idxOf?, List.findIdx?_map]
  rfl

theorem isSome_find? : (grammar.find? name).isSome ↔ name ∈ grammar.names := by
  simp [find?_eq]

/-- What a name stands for has that name. -/
theorem name?_of_find? (h : grammar.find? name = some rule) : grammar.name? rule = some name := by
  rw [find?_eq] at h
  obtain ⟨index, hindex, rfl⟩ := Option.map_eq_some_iff.mp h
  obtain ⟨hlength, hname, -⟩ := List.idxOf?_eq_some_iff.mp hindex
  rw [name?_eq, List.getElem?_eq_getElem hlength, hname]

theorem index_lt_of_find? (h : grammar.find? name = some rule) : rule.index < grammar.size := by
  obtain ⟨finished, hget, -⟩ := Option.map_eq_some_iff.mp (name?_of_find? h)
  exact (List.getElem?_eq_some_iff.mp hget).1

/-- Where no two rules have one name, a rule is what its name stands for. -/
theorem find?_of_name? (hnodup : grammar.names.Nodup) (h : grammar.name? rule = some name) :
    grammar.find? name = some rule := by
  rw [name?_eq] at h
  obtain ⟨hlength, rfl⟩ := List.getElem?_eq_some_iff.mp h
  obtain ⟨found, hfound⟩ := Option.isSome_iff_exists.mp
    (isSome_find?.mpr (List.getElem_mem hlength))
  -- What the name stands for has it as well, so both are in one place.
  have hname := name?_of_find? hfound
  rw [name?_eq] at hname
  obtain ⟨hlength', hname⟩ := List.getElem?_eq_some_iff.mp hname
  have hindex := (hnodup.getElem_inj_iff).mp hname
  rw [hfound, show found = rule from congrArg RuleId.mk hindex]

end Grammar

end LeftPeg
