
namespace CallGrammar

abbrev TermId := Nat

structure Term where
  name : String
  callable : String
  deriving DecidableEq, Repr

namespace Term

def plain (name : String) : Term := ⟨name, name⟩

def isAliased (t : Term) : Bool := t.name ≠ t.callable

def text (t : Term) : String :=
  if t.isAliased then t.name ++ ":" ++ t.callable else t.name

theorem text_plain (name : String) : (plain name).text = name := by simp [text, plain, isAliased]

end Term

structure TermTable where
  terms : Array Term
  nodup : terms.toList.Nodup
  deriving DecidableEq

namespace TermTable

def empty : TermTable := ⟨#[], by simp⟩

instance : Inhabited TermTable := ⟨empty⟩

def size (t : TermTable) : Nat := t.terms.size

def toList (t : TermTable) : List Term := t.terms.toList

def get? (t : TermTable) (id : TermId) : Option Term := t.terms[id]?

def find? (t : TermTable) (term : Term) : Option TermId := t.terms.idxOf? term

theorem get?_eq_getElem? (t : TermTable) (id : TermId) : t.get? id = t.toList[id]? := by
  simp [get?, toList]

theorem find?_eq_none_iff {t : TermTable} {term : Term} : t.find? term = none ↔ term ∉ t.toList := by
  simp [find?, toList, Array.idxOf?_eq_none_iff]

def intern (t : TermTable) (term : Term) : TermTable × TermId :=
  match h : t.find? term with
  | some id => (t, id)
  | none => (⟨t.terms.push term, by
      have := find?_eq_none_iff.mp h
      simpa [List.nodup_append, t.nodup, toList, ← ne_eq, ne_comm] using
        fun x hx hxt => this (by simpa [toList, ← hxt] using hx)⟩, t.size)

def label (t : TermTable) (id : TermId) : String :=
  match t.get? id with
  | some term => term.text
  | none => "#" ++ toString id

def byCallable (t : TermTable) (callable : String) : List TermId :=
  (List.range t.size).filter fun id => (t.get? id).any (·.callable = callable)

def callables (t : TermTable) : List String := (t.toList.map (·.callable)).eraseDups

theorem mem_callables {t : TermTable} {c : String} :
    c ∈ t.callables ↔ ∃ term ∈ t.toList, term.callable = c := by
  simp [callables]

end TermTable

end CallGrammar
