import SetLang.Assignment
import SetLang.Datatype.Definition
import SetLang.Diagnostic
import SetLang.Formula.Kind
import SetLang.Grammar.Shape
import SetLang.Signature
import SetLang.Encoding.Axioms
import SetLang.Typing.Check
import SetLang.Proofs.Unifier.MostGeneral
import SetLang.Proofs.Unifier.Runs
import SetLang.Proofs.Typing.Principal
import SetLang.Proofs.Typing.Located
import SetLang.Proofs.Encoding.Injective
import SetLang.Proofs.Encoding.Over
import SetLang.Proofs.Encoding.Freeness
import SetLang.Proofs.Encoding.Plain
import SetLang.Proofs.Encoding.Failure
import SetLang.Proofs.Encoding.CheckedAxioms
import SetLang.Proofs.Encoding.SetConstructor
import SetLang.Proofs.Encoding.Fresh
import SetLang.Proofs.Text.Types
import SetLang.Proofs.Text.Formulas
import SetLang.Proofs.Grammar.Variadic
import SetLang.Proofs.Session.Again
import SetLang.Proofs.Session.Known
import SetLang.Proofs.Session.Accepted
import SetLang.Proofs.TypeExpr
import SetLang.Proofs.ArgumentTypes
import SetLang.Proofs.Instantiation
import SetLang.Proofs.Substitution
import SetLang.Proofs.Identifiers
import SetLang.Proofs.Typing.Instantiation
import SetLang.Proofs.Typing.Making
import SetLang.Proofs.Typing.Assignment
import SetLang.Proofs.Rebuild.Occurrences
import SetLang.Proofs.Positions
