import CallGrammar.Expr.Parser
import CallGrammar.Proofs.Language

namespace CallGrammar

inductive Symbol where
  | alternation
  | sequence
  | item
  | atom
  deriving DecidableEq, Repr

inductive Quantifier where
  | star
  | plus
  | optional
  deriving DecidableEq, Repr

namespace Quantifier

def kind : Quantifier → TokenKind
  | .star => .star
  | .plus => .plus
  | .optional => .question

def wrap {α : Type} : Quantifier → Expr α → Expr α
  | .star => .star
  | .plus => .plus
  | .optional => .optional

end Quantifier

inductive Derives : Symbol → List TokenKind → Prop where
  | name : Derives .atom [.ident]
  | aliased : Derives .atom [.ident, .colon, .ident]
  | group {u : List TokenKind} : Derives .alternation u → Derives .atom (.parenOpen :: (u ++ [.parenClose]))
  | bare {u : List TokenKind} : Derives .atom u → Derives .item u
  | quantified {u : List TokenKind} (q : Quantifier) : Derives .atom u → Derives .item (u ++ [q.kind])
  | last {u : List TokenKind} : Derives .item u → Derives .sequence u
  | more {u v : List TokenKind} : Derives .item u → Derives .sequence v → Derives .sequence (u ++ v)
  | branch {u : List TokenKind} : Derives .sequence u → Derives .alternation u
  | split {u v : List TokenKind} :
      Derives .sequence u → Derives .alternation v → Derives .alternation (u ++ .pipe :: v)

structure Mention where
  term : Term
  span : Span
  deriving DecidableEq, Repr

def Occurrence.mention (o : Occurrence) : Mention := ⟨o.term, o.span⟩

inductive Phrase where
  | atom (e : Expr Mention)
  | item (e : Expr Mention)
  | sequence (items : List (Expr Mention))
  | alternation (branches : List (Expr Mention))

def Phrase.symbol : Phrase → Symbol
  | .atom _ => .atom
  | .item _ => .item
  | .sequence _ => .sequence
  | .alternation _ => .alternation

inductive Reads : Phrase → List Token → Prop where
  | name {t : Token} : t.kind = .ident → Reads (.atom (.term ⟨.plain t.text, t.span⟩)) [t]
  | aliased {t c a : Token} : t.kind = .ident → c.kind = .colon → a.kind = .ident →
      Reads (.atom (.term ⟨⟨t.text, a.text⟩, t.span.cover a.span⟩)) [t, c, a]
  | group {o c : Token} {ts : List Token} {branches : List (Expr Mention)} :
      o.kind = .parenOpen → c.kind = .parenClose → Reads (.alternation branches) ts →
      Reads (.atom (.alt branches)) (o :: (ts ++ [c]))
  | bare {e : Expr Mention} {ts : List Token} : Reads (.atom e) ts → Reads (.item e) ts
  | quantified {e : Expr Mention} {ts : List Token} {t : Token} (q : Quantifier) :
      t.kind = q.kind → Reads (.atom e) ts → Reads (.item (q.wrap e)) (ts ++ [t])
  | last {e : Expr Mention} {ts : List Token} : Reads (.item e) ts → Reads (.sequence [e]) ts
  | more {e : Expr Mention} {items : List (Expr Mention)} {ts us : List Token} :
      Reads (.item e) ts → Reads (.sequence items) us → Reads (.sequence (e :: items)) (ts ++ us)
  | branch {items : List (Expr Mention)} {ts : List Token} :
      Reads (.sequence items) ts → Reads (.alternation [.seq items]) ts
  | split {items branches : List (Expr Mention)} {ts us : List Token} {p : Token} :
      p.kind = .pipe → Reads (.sequence items) ts → Reads (.alternation branches) us →
      Reads (.alternation (.seq items :: branches)) (ts ++ p :: us)

theorem Reads.derives {p : Phrase} {ts : List Token} (h : Reads p ts) : Derives p.symbol (ts.map (·.kind)) := by
  induction h with
  | name ht =>
    simp only [List.map_cons, List.map_nil, ht]
    exact .name
  | aliased ht hc ha =>
    simp only [List.map_cons, List.map_nil, ht, hc, ha]
    exact .aliased
  | group ho hc _ ih =>
    simp only [List.map_cons, List.map_append, List.map_nil, ho, hc]
    exact .group ih
  | bare _ ih => exact .bare ih
  | quantified q ht _ ih =>
    simp only [List.map_append, List.map_cons, List.map_nil, ht]
    exact .quantified q ih
  | last _ ih => exact .last ih
  | more _ _ ihe ihs =>
    rw [List.map_append]
    exact .more ihe ihs
  | branch _ ih => exact .branch ih
  | split hp _ _ ihs ihb =>
    simp only [List.map_append, List.map_cons, hp]
    exact .split ihs ihb

theorem Reads.items_ne_nil {items : List (Expr Mention)} {ts : List Token} (h : Reads (.sequence items) ts) :
    items ≠ [] := by
  cases h <;> simp

def Phrase.Full : Phrase → Prop
  | .atom e => e.Full
  | .item e => e.Full
  | .sequence items => ∀ e ∈ items, e.Full
  | .alternation branches => branches ≠ [] ∧ ∀ e ∈ branches, e.Full

theorem Quantifier.full_wrap {α : Type} {e : Expr α} (q : Quantifier) (h : e.Full) : (q.wrap e).Full := by
  cases q with
  | star => exact .star h
  | plus => exact .plus h
  | optional => exact .optional h

theorem Reads.full {p : Phrase} {ts : List Token} (h : Reads p ts) : p.Full := by
  induction h with
  | name => exact .term _
  | aliased => exact .term _
  | group _ _ _ ih => exact .alt ih.1 ih.2
  | bare _ ih => exact ih
  | quantified q _ _ ih => exact q.full_wrap ih
  | last _ ih => exact List.forall_mem_singleton.mpr ih
  | more _ _ ihe ihs => exact List.forall_mem_cons.mpr ⟨ihe, ihs⟩
  | branch h ih => exact ⟨by simp, List.forall_mem_singleton.mpr (.seq h.items_ne_nil ih)⟩
  | split _ h _ ihs ihb => exact ⟨by simp, List.forall_mem_cons.mpr ⟨.seq h.items_ne_nil ihs, ihb.2⟩⟩

def Readable (ts : List Token) : Symbol → Prop
  | .atom => ∃ e, Reads (.atom e) ts
  | .item => ∃ e, Reads (.item e) ts
  | .sequence => ∃ items, Reads (.sequence items) ts
  | .alternation => ∃ branches, Reads (.alternation branches) ts

theorem Derives.readable {a : Symbol} {us : List TokenKind} (h : Derives a us) :
    ∀ ts : List Token, ts.map (·.kind) = us → Readable ts a := by
  induction h with
  | name =>
    intro ts hts
    obtain ⟨t, rfl, ht⟩ := List.map_eq_singleton_iff.mp hts
    exact ⟨_, .name ht⟩
  | aliased =>
    intro ts hts
    obtain ⟨t, ts', rfl, ht, hts'⟩ := List.map_eq_cons_iff.mp hts
    obtain ⟨c, ts'', rfl, hc, hts''⟩ := List.map_eq_cons_iff.mp hts'
    obtain ⟨a, rfl, ha⟩ := List.map_eq_singleton_iff.mp hts''
    exact ⟨_, .aliased ht hc ha⟩
  | group _ ih =>
    intro ts hts
    obtain ⟨o, ts', rfl, ho, hts'⟩ := List.map_eq_cons_iff.mp hts
    obtain ⟨inner, close, rfl, hinner, hclose⟩ := List.map_eq_append_iff.mp hts'
    obtain ⟨c, rfl, hc⟩ := List.map_eq_singleton_iff.mp hclose
    obtain ⟨branches, hread⟩ := ih inner hinner
    exact ⟨_, .group ho hc hread⟩
  | bare _ ih =>
    intro ts hts
    obtain ⟨e, hread⟩ := ih ts hts
    exact ⟨e, .bare hread⟩
  | quantified q _ ih =>
    intro ts hts
    obtain ⟨inner, last, rfl, hinner, hlast⟩ := List.map_eq_append_iff.mp hts
    obtain ⟨t, rfl, ht⟩ := List.map_eq_singleton_iff.mp hlast
    obtain ⟨e, hread⟩ := ih inner hinner
    exact ⟨_, .quantified q ht hread⟩
  | last _ ih =>
    intro ts hts
    obtain ⟨e, hread⟩ := ih ts hts
    exact ⟨_, .last hread⟩
  | more _ _ ihe ihs =>
    intro ts hts
    obtain ⟨first, others, rfl, hfirst, hothers⟩ := List.map_eq_append_iff.mp hts
    obtain ⟨e, he⟩ := ihe first hfirst
    obtain ⟨items, hitems⟩ := ihs others hothers
    exact ⟨_, .more he hitems⟩
  | branch _ ih =>
    intro ts hts
    obtain ⟨items, hread⟩ := ih ts hts
    exact ⟨_, .branch hread⟩
  | split _ _ ihs ihb =>
    intro ts hts
    obtain ⟨first, others, rfl, hfirst, hothers⟩ := List.map_eq_append_iff.mp hts
    obtain ⟨p, rest, rfl, hp, hrest⟩ := List.map_eq_cons_iff.mp hothers
    obtain ⟨items, hitems⟩ := ihs first hfirst
    obtain ⟨branches, hbranches⟩ := ihb rest hrest
    exact ⟨_, .split hp hitems hbranches⟩

theorem derives_alternation_iff {ts : List Token} :
    Derives .alternation (ts.map (·.kind)) ↔ ∃ branches, Reads (.alternation branches) ts := by
  constructor
  · intro h
    exact h.readable ts rfl
  · rintro ⟨branches, h⟩
    exact h.derives

end CallGrammar
