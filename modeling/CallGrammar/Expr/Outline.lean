import CallGrammar.Expr
import CallGrammar.Term

namespace CallGrammar.Expr

def outlineLine (depth : Nat) (text : String) : String := String.ofList (List.replicate (2 * depth) ' ') ++ text

mutual

def outlineLines : Nat → Expr Term → List String
  | depth, .term t => [outlineLine depth ("Term " ++ t.text)]
  | depth, .seq items => outlineLine depth "Seq" :: outlineLinesAll (depth + 1) items
  | depth, .alt branches => outlineLine depth "Alt" :: outlineLinesAll (depth + 1) branches
  | depth, .star inner => outlineLine depth "Star" :: outlineLines (depth + 1) inner
  | depth, .plus inner => outlineLine depth "Plus" :: outlineLines (depth + 1) inner
  | depth, .optional inner => outlineLine depth "Optional" :: outlineLines (depth + 1) inner

def outlineLinesAll : Nat → List (Expr Term) → List String
  | _, [] => []
  | depth, e :: es => outlineLines depth e ++ outlineLinesAll depth es

end

def outline (e : Expr Term) : String := String.join ((outlineLines 0 e).map (· ++ "\n"))

end CallGrammar.Expr
