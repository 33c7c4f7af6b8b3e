import CallGrammar.Proofs.Compiled
import CallGrammar.Proofs.Partition
import CallGrammar.Proofs.Spelling

namespace CallGrammar

open Lexer (Piece Splits tokenAt)
open String (utf8Len utf8Len_append)

namespace Span

def Within (s t : Span) : Prop := t.start ≤ s.start ∧ s.stop ≤ t.stop

end Span

def solid (text : String) : String := String.ofList (text.toList.filter (!isBlank ·))

def Term.WrittenAs (t : Term) (text : String) : Prop :=
  (text = t.name ∧ t.callable = t.name) ∨ text = t.name ++ ":" ++ t.callable

inductive Mentioned : Mention → List Token → Prop where
  | plain {t : Token} : t.kind = .ident → Mentioned ⟨.plain t.text, t.span⟩ [t]
  | aliased {t c a : Token} : t.kind = .ident → c.kind = .colon → a.kind = .ident →
      Mentioned ⟨⟨t.text, a.text⟩, t.span.cover a.span⟩ [t, c, a]

inductive Mentions : List Mention → List Token → Prop where
  | nil : Mentions [] []
  | skip {ms : List Mention} {t : Token} {ts : List Token} : t.kind ≠ .ident → Mentions ms ts → Mentions ms (t :: ts)
  | cons {m : Mention} {ms : List Mention} {us ts : List Token} : Mentioned m us → Mentions ms ts →
      Mentions (m :: ms) (us ++ ts)

def Ordered (ts : List Token) : Prop := ts.Pairwise fun t u => t.span.stop ≤ u.span.start

section

variable {ms ns : List Mention} {m : Mention} {ts us : List Token} {t : Token}

namespace Mentioned

theorem exists_start_eq (h : Mentioned m us) : ∃ t ∈ us, m.span.start = t.span.start := by
  cases h with
  | plain => exact ⟨_, List.mem_cons_self, rfl⟩
  | aliased => exact ⟨_, List.mem_cons_self, rfl⟩

theorem exists_stop_eq (h : Mentioned m us) : ∃ t ∈ us, m.span.stop = t.span.stop := by
  cases h with
  | plain => exact ⟨_, List.mem_cons_self, rfl⟩
  | @aliased t c a => exact ⟨a, by simp, rfl⟩

theorem within (h : Mentioned m us) (hus : Ordered us) (hlt : ∀ t ∈ us, t.span.start < t.span.stop) (ht : t ∈ us) :
    t.span.Within m.span := by
  cases h with
  | plain =>
    obtain rfl := List.mem_singleton.mp ht
    exact ⟨Nat.le_refl _, Nat.le_refl _⟩
  | @aliased t c a =>
    simp only [Ordered, List.pairwise_cons, List.forall_mem_cons] at hus hlt
    have hfirst := hus.1.2.1
    have hlast := hus.2.1.1
    simp only [List.mem_cons, List.not_mem_nil, or_false] at ht
    rcases ht with rfl | rfl | rfl <;> simp only [Span.Within, Span.cover] <;> omega

theorem start_lt (h : Mentioned m us) (hus : Ordered us) (hlt : ∀ t ∈ us, t.span.start < t.span.stop) :
    m.span.start < m.span.stop := by
  obtain ⟨t, ht, hstart⟩ := h.exists_start_eq
  have hstop := (h.within hus hlt ht).2
  rw [hstart]
  exact Nat.lt_of_lt_of_le (hlt t ht) hstop

end Mentioned

namespace Mentions

theorem append (h : Mentions ms ts) (h' : Mentions ns us) : Mentions (ms ++ ns) (ts ++ us) := by
  induction h with
  | nil => exact h'
  | skip ht _ ih => exact .skip ht ih
  | cons hm _ ih =>
    rw [List.cons_append, List.append_assoc]
    exact .cons hm ih

theorem single (h : Mentioned m us) : Mentions [m] us := by
  simpa using Mentions.cons h .nil

theorem concat (h : Mentions ms ts) (ht : t.kind ≠ .ident) : Mentions ms (ts ++ [t]) := by
  simpa using h.append (.skip ht .nil)

theorem exists_mentioned (h : Mentions ms ts) (hm : m ∈ ms) : ∃ us vs ws, ts = us ++ vs ++ ws ∧ Mentioned m vs := by
  induction h with
  | nil => exact absurd hm List.not_mem_nil
  | @skip _ t _ _ _ ih =>
    obtain ⟨us, vs, ws, rfl, hvs⟩ := ih hm
    exact ⟨t :: us, vs, ws, rfl, hvs⟩
  | @cons _ _ us ts hmention _ ih =>
    rcases List.mem_cons.mp hm with rfl | hm
    · exact ⟨[], us, ts, rfl, hmention⟩
    · obtain ⟨us', vs, ws, rfl, hvs⟩ := ih hm
      exact ⟨us ++ us', vs, ws, by simp, hvs⟩

theorem exists_start_eq (h : Mentions ms ts) (hm : m ∈ ms) : ∃ t ∈ ts, m.span.start = t.span.start := by
  obtain ⟨us, vs, ws, rfl, hvs⟩ := h.exists_mentioned hm
  obtain ⟨t, ht, hstart⟩ := hvs.exists_start_eq
  exact ⟨t, by simp [ht], hstart⟩

theorem start_lt (h : Mentions ms ts) (hts : Ordered ts) (hlt : ∀ t ∈ ts, t.span.start < t.span.stop) (hm : m ∈ ms) :
    m.span.start < m.span.stop := by
  obtain ⟨us, vs, ws, rfl, hvs⟩ := h.exists_mentioned hm
  have hvsOrdered : Ordered vs := hts.sublist (by simp)
  exact hvs.start_lt hvsOrdered fun t ht => hlt t (by simp [ht])

theorem ordered (h : Mentions ms ts) (hts : Ordered ts) : ms.Pairwise fun m n => m.span.stop ≤ n.span.start := by
  induction h with
  | nil => exact .nil
  | skip _ _ ih => exact ih hts.of_cons
  | cons hmention hrest ih =>
    obtain ⟨_, hts, hbetween⟩ := List.pairwise_append.mp hts
    refine .cons (fun n hn => ?_) (ih hts)
    obtain ⟨t, ht, hstop⟩ := hmention.exists_stop_eq
    obtain ⟨u, hu, hstart⟩ := hrest.exists_start_eq hn
    rw [hstop, hstart]
    exact hbetween t ht u hu

theorem exists_within (h : Mentions ms ts) (hts : Ordered ts) (hlt : ∀ t ∈ ts, t.span.start < t.span.stop) (ht : t ∈ ts)
    (hkind : t.kind = .ident) : ∃ m ∈ ms, t.span.Within m.span := by
  induction h with
  | nil => exact absurd ht List.not_mem_nil
  | skip hother _ ih =>
    rcases List.mem_cons.mp ht with rfl | ht
    · exact absurd hkind hother
    · exact ih hts.of_cons (fun u hu => hlt u (List.mem_cons_of_mem _ hu)) ht
  | @cons m ms us ts hmention _ ih =>
    obtain ⟨hus, hts, _⟩ := List.pairwise_append.mp hts
    obtain ⟨hltus, hltts⟩ := List.forall_mem_append.mp hlt
    rcases List.mem_append.mp ht with ht | ht
    · exact ⟨m, List.mem_cons_self, hmention.within hus hltus ht⟩
    · obtain ⟨n, hn, hwithin⟩ := ih hts hltts ht
      exact ⟨n, List.mem_cons_of_mem _ hn, hwithin⟩

end Mentions

section

variable {before after inner blanks seen cs : List Char} {kind : TokenKind} {source : String} {ws : List Token}

theorem filter_blanks (h : ∀ c ∈ blanks, isBlank c = true) : blanks.filter (!isBlank ·) = [] := by
  simpa using h

theorem filter_piece (h : Piece before after kind inner) : inner.filter (!isBlank ·) = inner := by
  rw [List.filter_eq_self]
  intro c hc
  simp [h.isBlank_eq_false hc]

theorem eq_colon_of_piece (h : Piece before after .colon inner) : inner = [':'] := by
  cases h with
  | symbol hkind =>
    unfold TokenKind.ofChar? at hkind
    split at hkind <;> cases hkind
    rfl

theorem solid_slice (h : source.toList = before ++ inner ++ after) :
    solid (Span.slice ⟨utf8Len before, utf8Len (before ++ inner)⟩ source) =
      String.ofList (inner.filter (!isBlank ·)) := by
  rw [solid, Span.slice_eq h, String.toList_ofList]

theorem Mentioned.writtenAs (h : Mentioned m us) (hs : Splits seen cs (us ++ ws)) (hsource : source.toList = seen ++ cs) :
    m.term.WrittenAs (solid (m.span.slice source)) := by
  cases h with
  | plain =>
    obtain ⟨blanks, kind, inner, rest, rfl, _, hpiece, rfl, _⟩ := hs.exists_first
    have hname : source.toList = seen ++ blanks ++ inner ++ rest := by simp [hsource]
    have hsolid := solid_slice hname
    rw [filter_piece hpiece] at hsolid
    exact .inl ⟨hsolid, rfl⟩
  | aliased ht hc ha =>
    obtain ⟨blanks, kind, name, rest, rfl, _, hname, rfl, hbehind⟩ := hs.exists_first
    obtain ⟨blanks', kind', colon, rest', rfl, hblanks', hcolon, rfl, hbehind'⟩ := hbehind.exists_first
    obtain ⟨blanks'', kind'', callable, rest'', rfl, hblanks'', hcallable, rfl, _⟩ := hbehind'.exists_first
    obtain rfl : kind' = .colon := hc
    obtain rfl := eq_colon_of_piece hcolon
    have hwhole : source.toList =
        seen ++ blanks ++ (name ++ blanks' ++ [':'] ++ blanks'' ++ callable) ++ rest'' := by simp [hsource]
    have hsolid := solid_slice hwhole
    simp only [List.filter_append, filter_piece hname, filter_piece hcolon, filter_piece hcallable,
      filter_blanks hblanks', filter_blanks hblanks'', List.append_nil] at hsolid
    refine .inr ?_
    simpa [Span.cover, tokenAt, String.append_assoc] using hsolid

theorem Mentions.writtenAs (hsize : source.utf8ByteSize < UInt32.size) (h : Mentions ms (lex source)) (hm : m ∈ ms) :
    m.term.WrittenAs (solid (m.span.slice source)) := by
  obtain ⟨us, vs, ws, hts, hvs⟩ := h.exists_mentioned hm
  have hs := splits_lex hsize
  rw [hts, List.append_assoc] at hs
  obtain ⟨ds, es, hsource, hes⟩ := hs.exists_append
  exact hvs.writtenAs hes hsource

end

theorem Reads.mentions {p : Phrase} (h : Reads p ts) : Mentions p.leaves ts := by
  induction h with
  | name ht => exact .single (.plain ht)
  | aliased ht hc ha => exact .single (.aliased ht hc ha)
  | group ho hc _ ih => exact .skip (by simp [ho]) (ih.concat (by simp [hc]))
  | bare _ ih => exact ih
  | quantified q ht _ ih =>
    have hother : q.kind ≠ .ident := by cases q <;> simp [Quantifier.kind]
    have hleaves := ih.concat (ht ▸ hother)
    cases q <;> exact hleaves
  | last _ ih => simpa [Phrase.leaves, Expr.leavesAll] using ih
  | more _ _ ihe ihs => exact ihe.append ihs
  | branch _ ih => simpa [Phrase.leaves, Expr.leavesAll, Expr.leaves] using ih
  | split hp _ _ ihs ihb => exact ihs.append (.skip (by simp [hp]) ihb)

end

structure Parsed.Describes (p : Parsed) (source : String) : Prop where
  start_lt {o : Occurrence} : o ∈ p.root.leaves → o.span.start < o.span.stop
  ordered : p.root.leaves.Pairwise fun o o' => o.span.stop ≤ o'.span.start
  existsUnique {t : Token} : t ∈ lex source → t.kind = .ident → ∃! o, o ∈ p.root.leaves ∧ t.span.Within o.span
  writtenAs {o : Occurrence} : o ∈ p.root.leaves → o.term.WrittenAs (solid (o.span.slice source))
  writable {o : Occurrence} : o ∈ p.root.leaves → o.term.Writable
  get?_eq {o : Occurrence} : o ∈ p.root.leaves → p.terms.get? o.id = some o.term
  toList_eq : p.terms.toList = (p.root.leaves.map (·.term)).eraseDups
  id_eq_iff {o o' : Occurrence} : o ∈ p.root.leaves → o' ∈ p.root.leaves → (o.id = o'.id ↔ o.term = o'.term)
  used {id : TermId} : id < p.terms.size → ∃ o ∈ p.root.leaves, o.id = id

variable {p : Parsed} {source : String} {limit : Option Nat}

structure Parsed.DrawnFrom (p : Parsed) (source : String) : Prop where
  mentions : Mentions (p.root.leaves.map Occurrence.mention) (lex source)
  writable {o : Occurrence} : o ∈ p.root.leaves → o.term.Writable
  get?_eq {o : Occurrence} : o ∈ p.root.leaves → p.terms.get? o.id = some o.term
  toList_eq : p.terms.toList = (p.root.leaves.map (·.term)).eraseDups

theorem drawnFrom_of_parse (hsize : source.utf8ByteSize < UInt32.size) (h : parse? limit source = some (.ok p)) :
    p.DrawnFrom source := by
  rw [parse?_eq hsize, Option.some.injEq, parse] at h
  obtain ⟨branches, hread, hnumber⟩ := parseTokens_eq_ok_iff.mp (parseTokens_none h)
  have hmentions : p.root.leaves.map Occurrence.mention = (Expr.alt branches).leaves := by
    rw [← Expr.leaves_map, ← Expr.map_mention_number .empty (.alt branches), hnumber]
  have hterms : (Expr.alt branches).leaves.map (·.term) = p.root.leaves.map (·.term) := by
    rw [← hmentions, List.map_map]
    rfl
  refine ⟨?_, fun {o} ho => ?_, fun {o} ho => ?_, ?_⟩
  · rw [hmentions]
    exact hread.mentions
  · have hmem : o.mention ∈ (Expr.alt branches).leaves := hmentions ▸ List.mem_map_of_mem ho
    exact hread.writable (fun t ht hkind => (standsIn_of_mem_lex hsize ht).isWord hkind) _ hmem
  · have hnamed := Expr.get?_of_mem_leaves_number .empty (.alt branches) (o := o)
    rw [hnumber] at hnamed
    exact hnamed ho
  · have htable := congrArg TermTable.toList (Expr.terms_number .empty (.alt branches))
    rwa [hnumber, TermTable.toList_internAll_empty, hterms] at htable

theorem eq_of_within {os : List Occurrence} {o o' : Occurrence} {s : Span}
    (hos : os.Pairwise fun o o' => o.span.stop ≤ o'.span.start) (hs : s.start < s.stop) (ho : o ∈ os) (ho' : o' ∈ os)
    (h : s.Within o.span) (h' : s.Within o'.span) : o = o' := by
  obtain ⟨hstart, hstop⟩ := h
  obtain ⟨hstart', hstop'⟩ := h'
  induction hos with
  | nil => exact absurd ho List.not_mem_nil
  | cons hfirst _ ih =>
    rcases List.mem_cons.mp ho with heq | hmem <;> rcases List.mem_cons.mp ho' with heq' | hmem'
    · rw [heq, heq']
    · have hbefore := hfirst o' hmem'
      rw [← heq] at hbefore
      omega
    · have hbefore := hfirst o hmem
      rw [← heq'] at hbefore
      omega
    · exact ih hmem hmem'

namespace Parsed.DrawnFrom

variable {o o' : Occurrence} {t : Token}

theorem start_lt (hsize : source.utf8ByteSize < UInt32.size) (h : p.DrawnFrom source) (ho : o ∈ p.root.leaves) :
    o.span.start < o.span.stop := by
  have hmention : o.mention ∈ p.root.leaves.map Occurrence.mention := List.mem_map_of_mem ho
  exact h.mentions.start_lt (partitions_lex hsize).ordered (fun _ => (partitions_lex hsize).start_lt) hmention

theorem ordered (hsize : source.utf8ByteSize < UInt32.size) (h : p.DrawnFrom source) :
    p.root.leaves.Pairwise fun o o' => o.span.stop ≤ o'.span.start :=
  List.pairwise_map.mp (h.mentions.ordered (partitions_lex hsize).ordered)

theorem existsUnique (hsize : source.utf8ByteSize < UInt32.size) (h : p.DrawnFrom source) (ht : t ∈ lex source)
    (hkind : t.kind = .ident) : ∃! o, o ∈ p.root.leaves ∧ t.span.Within o.span := by
  have hlt : ∀ t ∈ lex source, t.span.start < t.span.stop := fun _ => (partitions_lex hsize).start_lt
  obtain ⟨m, hm, hwithin⟩ := h.mentions.exists_within (partitions_lex hsize).ordered hlt ht hkind
  obtain ⟨o, ho, rfl⟩ := List.mem_map.mp hm
  refine ⟨o, ⟨ho, hwithin⟩, ?_⟩
  rintro o' ⟨ho', hwithin'⟩
  exact eq_of_within (h.ordered hsize) (hlt t ht) ho' ho hwithin' hwithin

theorem writtenAs (hsize : source.utf8ByteSize < UInt32.size) (h : p.DrawnFrom source) (ho : o ∈ p.root.leaves) :
    o.term.WrittenAs (solid (o.span.slice source)) := by
  have hmention : o.mention ∈ p.root.leaves.map Occurrence.mention := List.mem_map_of_mem ho
  have hwritten := h.mentions.writtenAs hsize hmention
  exact hwritten

theorem id_eq_iff (h : p.DrawnFrom source) (ho : o ∈ p.root.leaves) (ho' : o' ∈ p.root.leaves) :
    o.id = o'.id ↔ o.term = o'.term := by
  have hget := h.get?_eq ho
  constructor
  · intro hid
    rw [hid, h.get?_eq ho'] at hget
    exact (Option.some.inj hget).symm
  · intro hterm
    rw [hterm] at hget
    exact TermTable.eq_of_get?_eq hget (h.get?_eq ho')

theorem exists_id_eq (h : p.DrawnFrom source) {id : TermId} (hid : id < p.terms.size) : ∃ o ∈ p.root.leaves, o.id = id := by
  obtain ⟨x, hx⟩ : ∃ x, p.terms.get? id = some x := ⟨_, Array.getElem?_eq_getElem hid⟩
  have hmem : x ∈ p.terms.toList := List.mem_of_getElem? (TermTable.get?_eq_getElem? p.terms id ▸ hx)
  rw [h.toList_eq, List.mem_eraseDups] at hmem
  obtain ⟨o, ho, rfl⟩ := List.mem_map.mp hmem
  exact ⟨o, ho, TermTable.eq_of_get?_eq (h.get?_eq ho) hx⟩

end Parsed.DrawnFrom

end CallGrammar
