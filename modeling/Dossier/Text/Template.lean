-- A template is a text in which marks stand for what is known only when the message is made.

namespace Dossier

-- Fills every occurrence of `mark`, from left to right, with `by`. The first argument counts the
-- characters that belong to an occurrence already met.
def fillChars (mark subst : List Char) : Nat → List Char → List Char
  | _, [] => []
  | n + 1, _ :: cs => fillChars mark subst n cs
  | 0, c :: cs =>
    if mark.isPrefixOf (c :: cs) then subst ++ fillChars mark subst (mark.length - 1) cs
    else c :: fillChars mark subst 0 cs

def fill (template mark subst : String) : String :=
  String.ofList (fillChars mark.toList subst.toList 0 template.toList)

end Dossier
