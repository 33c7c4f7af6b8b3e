import CallGrammar.Expr
import CallGrammar.Nfa

namespace CallGrammar.Nfa

def addLoop (n : Nfa) (source target : StateId) (skippable : Bool) (body : Nfa → StateId → StateId → Nfa) : Nfa :=
  let entry := n.size
  let exit := n.size + 1
  let looped := ((body ((n.addStates 2).addEpsilon source entry) entry exit).addEpsilon exit entry).addEpsilon exit target
  if skippable then looped.addEpsilon entry exit else looped

mutual

def addExpr (n : Nfa) : Expr TermId → StateId → StateId → Nfa
  | .term t, source, target => n.addEdge source t target
  | .seq items, source, target => addItems (n.addStates (items.length - 1)) items source n.size target
  | .alt branches, source, target => addBranches n branches source target
  | .star inner, source, target => n.addLoop source target true fun m entry exit => addExpr m inner entry exit
  | .plus inner, source, target => n.addLoop source target false fun m entry exit => addExpr m inner entry exit
  | .optional inner, source, target => (addExpr n inner source target).addEpsilon source target

def addItems (n : Nfa) : List (Expr TermId) → StateId → StateId → StateId → Nfa
  | [], source, _, target => n.addEpsilon source target
  | [e], source, _, target => addExpr n e source target
  | e :: es, source, joint, target => addItems (addExpr n e source joint) es joint (joint + 1) target

def addBranches (n : Nfa) : List (Expr TermId) → StateId → StateId → Nfa
  | [], _, _ => n
  | e :: es, source, target => addBranches (addExpr n e source target) es source target

end

def ofExpr (e : Expr TermId) : Nfa := addExpr initial e start accept

end CallGrammar.Nfa
