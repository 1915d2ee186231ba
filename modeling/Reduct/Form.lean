import Reduct.Pattern
import Reduct.Span
import Reduct.Template

/-!
# Forms of a specification

A specification is a list of top-level forms. Languages, reduction relations and metafunctions
are defined by name; the other forms match, check, or name a source of host functions. Patterns
are still unresolved and templates not annotated.
-/

namespace Reduct

/-- One rule of a grammar: a non-terminal and its alternatives. -/
structure RuleDefinition where
  name : Symbol
  alternatives : List Pattern
  span : Span
deriving DecidableEq

/-- A grammar. -/
structure LanguageDefinition where
  name : Symbol
  rules : List RuleDefinition
deriving DecidableEq

/-- One case of a reduction relation. -/
structure ReductionCase where
  pattern : Pattern
  template : Template
  /-- The name of the case, for readers only. -/
  name : Option String
  span : Span
deriving DecidableEq

/-- A relation that rewrites terms of a language. -/
structure RelationDefinition where
  name : Symbol
  language : Symbol
  /-- The pattern that every term to be reduced has to match. -/
  domain : Option Pattern
  cases : List ReductionCase
deriving DecidableEq

/-- The patterns that arguments and result of a metafunction have to match. -/
structure Contract where
  domain : List Pattern
  codomain : Pattern
deriving DecidableEq

/-- One case of a metafunction. -/
structure MetafunctionCase where
  arguments : List Pattern
  template : Template
  span : Span
deriving DecidableEq

/-- A function on terms, defined by cases. -/
structure MetafunctionDefinition where
  name : Symbol
  language : Symbol
  contract : Option Contract
  cases : List MetafunctionCase
deriving DecidableEq

/-- What a top-level form says. -/
inductive FormBody where
  /-- Define a language. -/
  | language (definition : LanguageDefinition)
  /-- Define a reduction relation. -/
  | relation (definition : RelationDefinition)
  /-- Define a metafunction. -/
  | metafunction (definition : MetafunctionDefinition)
  /-- Match a term and show the matches. -/
  | redexMatch (language : Symbol) (pattern : Pattern) (term : Term)
  /-- Match a term and compare the matches with the expected ones. -/
  | assertMatch (language : Symbol) (pattern : Pattern) (term : Term)
      (expected : List (List (Symbol × Term)))
  /-- Bind variables by matching, build a template, and compare with the expected term. -/
  | assertTerm (language : Symbol) (bindings : List (Pattern × Term)) (template : Template)
      (expected : Term)
  /-- Reduce a term by one step and compare the results with the expected ones. -/
  | assertReduction (relation : Symbol) (term : Term) (expected : List Term)
  /-- Name a source of host functions. -/
  | foreignSource (path : String)
deriving DecidableEq

/-- A top-level form and where it stands. -/
structure Form where
  body : FormBody
  span : Span
deriving DecidableEq

end Reduct
