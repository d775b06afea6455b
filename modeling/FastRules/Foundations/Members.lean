import Mathlib.Data.List.Basic

/-!
# Deciding what holds of the members

There are finitely many characters, so that a statement about all of them is decidable. One about
the characters of a text is to be decided by looking at the text: the instances here come first.
-/

namespace Members

variable {p : Char → Prop} [DecidablePred p]

instance (priority := high) decidableForallMemList (s : List Char) : Decidable (∀ c ∈ s, p c) :=
  List.decidableBAll p s

instance (priority := high) decidableExistsMemList (s : List Char) : Decidable (∃ c ∈ s, p c) :=
  List.decidableBEx p s

instance (priority := high) decidableForallMemOption (o : Option Char) :
    Decidable (∀ c ∈ o, p c) :=
  Option.decidableForallMem o

instance (priority := high) decidableExistsMemOption (o : Option Char) :
    Decidable (∃ c ∈ o, p c) :=
  Option.decidableExistsMem o

end Members
