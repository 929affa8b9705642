import ObjectMachine.Text.Alphabetic

/-!
# Selectors

The arguments of a message can be read off its selector: an operator takes one, a word or a list of
keywords takes one for each colon.
-/

namespace ObjectMachine

/-- The number of arguments that a selector announces. -/
def selectorArgCount (selector : String) : Nat :=
  match selector.toList with
  | [] => 0
  | first :: rest =>
    if !Text.isAlphabetic first && first != '_' then 1 else (first :: rest).count ':'

end ObjectMachine
