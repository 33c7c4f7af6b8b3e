import CallGrammar.Proofs.Segments
import CallGrammar.Token.Rules

namespace CallGrammar

open String (utf8Len utf8Len_append)

variable {c : Char} {cs ds : List Char} {k : TokenKind} {n : Nat}

namespace TokenKind

def ruleOf (c : Char) : TokenKind := if isBlank c then .whitespace else (ofChar? c).getD .ident

theorem ofChar?_eq_none_iff : ofChar? c = none ↔ c ∉ ['(', ')', '*', '+', '?', ':', '|'] := by
  unfold ofChar?
  split <;> simp_all

theorem isBlank_iff : isBlank c = true ↔ c ∈ [' ', '\t', '\r', '\n'] := by
  simp [isBlank, or_assoc]

theorem isWordChar_iff : isWordChar c = true ↔ c ∉ [' ', '\t', '\r', '\n', '(', ')', '*', '+', '?', ':', '|'] := by
  rw [isWordChar, Bool.and_eq_true, Option.isNone_iff_eq_none, ofChar?_eq_none_iff]
  simp [isBlank]
  tauto

theorem ruleOf_of_isBlank (h : isBlank c = true) : ruleOf c = .whitespace := by simp [ruleOf, h]

theorem ruleOf_of_isWordChar (h : isWordChar c = true) : ruleOf c = .ident := by
  have hclasses : isBlank c = false ∧ ofChar? c = none := by simpa [isWordChar] using h
  simp [ruleOf, hclasses]

theorem ruleOf_of_ofChar? (h : ofChar? c = some k) : ruleOf c = k := by
  simp [ruleOf, Lexer.isBlank_of_ofChar? h, h]

theorem isBlank_of_ruleOf (h : ruleOf c = .whitespace) : isBlank c = true := by
  rw [ruleOf] at h
  split at h
  · assumption
  · cases hkind : ofChar? c with
    | none => simp [hkind] at h
    | some k =>
      rw [hkind] at h
      unfold ofChar? at hkind
      split at hkind <;> cases hkind <;> cases h

theorem isWordChar_of_ruleOf (h : ruleOf c = .ident) : isWordChar c = true := by
  rw [ruleOf] at h
  split at h
  · cases h
  · rename_i hblank
    cases hkind : ofChar? c with
    | none => simp [isWordChar, hblank, hkind]
    | some k => exact absurd (by simpa [hkind] using h) (ofChar?_ne_ident hkind)

theorem admits_ident_iff : TokenKind.ident.admits cs = true ↔ cs ≠ [] ∧ ∀ c ∈ cs, isWordChar c = true := by
  simp only [admits, pattern?, Option.any_some, Pattern.matches, Bool.and_eq_true, List.all_eq_true, isWordChar_iff]
  simp

theorem admits_whitespace_iff : TokenKind.whitespace.admits cs = true ↔ cs ≠ [] ∧ ∀ c ∈ cs, isBlank c = true := by
  simp only [admits, pattern?, Option.any_some, Pattern.matches, Bool.and_eq_true, List.all_eq_true, isBlank_iff]
  simp

theorem admits_singleton (h : ofChar? c = some k) : k.admits [c] = true := by
  unfold ofChar? at h
  split at h <;> cases h <;> rfl

theorem admits_cases (h : k.admits cs = true) : (∃ c, cs = [c] ∧ ofChar? c = some k) ∨ k = .ident ∨ k = .whitespace := by
  cases k with
  | ident => exact .inr (.inl rfl)
  | whitespace => exact .inr (.inr rfl)
  | garbage => cases h
  | parenOpen | parenClose | colon | star | plus | question | pipe =>
    obtain rfl : cs = _ := by simpa [admits, pattern?, Pattern.matches] using h
    exact .inl ⟨_, rfl, rfl⟩

theorem ruleOf_of_admits (h : k.admits cs = true) (hc : c ∈ cs) : ruleOf c = k := by
  rcases admits_cases h with ⟨d, rfl, hd⟩ | rfl | rfl
  · obtain rfl := List.mem_singleton.mp hc
    exact ruleOf_of_ofChar? hd
  · exact ruleOf_of_isWordChar ((admits_ident_iff.mp h).2 c hc)
  · exact ruleOf_of_isBlank ((admits_whitespace_iff.mp h).2 c hc)

theorem ne_nil_of_admits (h : k.admits cs = true) : cs ≠ [] := by
  rcases admits_cases h with ⟨c, rfl, _⟩ | rfl | rfl
  · simp
  · exact (admits_ident_iff.mp h).1
  · exact (admits_whitespace_iff.mp h).1

end TokenKind

open TokenKind

namespace Rules

theorem rule?_of_admits (h : k.admits (c :: cs) = true) : rule? (c :: cs) = some k := by
  cases hrule : rule? (c :: cs) with
  | none =>
    have hall : k ∈ TokenKind.all := by cases k <;> decide
    exact absurd h (by simpa using List.find?_eq_none.mp hrule k hall)
  | some k' =>
    have hadmits : k'.admits (c :: cs) = true := by
      unfold rule? at hrule
      simpa using List.find?_some hrule
    rw [← ruleOf_of_admits hadmits List.mem_cons_self, ruleOf_of_admits h List.mem_cons_self]

structure Longest (k : TokenKind) (cs ds : List Char) : Prop where
  admits : k.admits cs = true
  greatest {k' : TokenKind} {es : List Char} : es ≠ [] → es <+: ds → k'.admits (cs ++ es) = false

theorem findSome?_reverse_range {α : Type} {f : Nat → Option α} {a : α} {m n : Nat} (hf : f n = some a) (hn : n < m)
    (hnone : ∀ i, n < i → i < m → f i = none) : (List.range m).reverse.findSome? f = some a := by
  induction m with
  | zero => exact absurd hn (Nat.not_lt_zero n)
  | succ m ih =>
    rw [List.range_succ, List.reverse_append, List.reverse_singleton, List.singleton_append, List.findSome?_cons]
    rcases Nat.lt_succ_iff_lt_or_eq.mp hn with hlt | rfl
    · rw [hnone m hlt (Nat.lt_succ_self m)]
      exact ih hlt fun i hi him => hnone i hi (Nat.lt_succ_of_lt him)
    · rw [hf]

theorem longest?_of_longest (h : Longest k (c :: cs) ds) : longest? c (cs ++ ds) = some (k, cs.length) := by
  rw [longest?]
  apply findSome?_reverse_range
  · rw [List.take_left, rule?_of_admits h.admits, Option.map_some]
  · simp only [List.length_append]
    omega
  · intro n hn hlength
    have htake : (cs ++ ds).take n = cs ++ ds.take (n - cs.length) := by
      rw [List.take_append, List.take_of_length_le (Nat.le_of_lt hn)]
    have hne : ds.take (n - cs.length) ≠ [] := by
      rw [List.length_append] at hlength
      rw [← List.length_pos_iff, List.length_take]
      omega
    have hrule : rule? (c :: (cs ++ ds.take (n - cs.length))) = none := by
      rw [rule?, List.find?_eq_none]
      intro k' _
      have hnot : k'.admits (c :: cs ++ ds.take (n - cs.length)) = false := h.greatest hne (List.take_prefix _ _)
      simpa using hnot
    rw [htake, hrule, Option.map_none]

theorem longest_of_stop (h : k.admits cs = true) (hstop : ∀ d ∈ ds.head?, ruleOf d ≠ k) : Longest k cs ds where
  admits := h
  greatest {k' es} hne hes := by
    by_contra hadmits
    rw [Bool.not_eq_false] at hadmits
    obtain ⟨c, hc⟩ := List.exists_mem_of_ne_nil cs (ne_nil_of_admits h)
    obtain ⟨d, es, rfl⟩ := List.exists_cons_of_ne_nil hne
    obtain ⟨rest, rfl⟩ := hes
    have hkind : k' = k := by
      rw [← ruleOf_of_admits hadmits (List.mem_append_left _ hc), ruleOf_of_admits h hc]
    exact hstop d rfl (hkind ▸ ruleOf_of_admits hadmits (by simp))

theorem longest_symbol (h : ofChar? c = some k) (ds : List Char) : Longest k [c] ds where
  admits := admits_singleton h
  greatest {k' es} hne _ := by
    by_contra hadmits
    rw [Bool.not_eq_false] at hadmits
    have hkind : k' = k := by
      rw [← ruleOf_of_admits hadmits List.mem_cons_self, ruleOf_of_ofChar? h]
    rcases admits_cases hadmits with ⟨d, hd, _⟩ | rfl | rfl
    · simp [hne] at hd
    · exact ofChar?_ne_ident h hkind.symm
    · have hpiece : Lexer.Piece [] [] k [c] := .symbol h
      exact absurd hkind.symm hpiece.kind_ne.1

theorem longest_of_piece {seen : List Char} (h : Lexer.Piece seen ds k cs) : Longest k cs ds := by
  cases h with
  | symbol hkind => exact longest_symbol hkind ds
  | word hne hword _ hends =>
    refine longest_of_stop (admits_ident_iff.mpr ⟨hne, hword⟩) fun d hd hrule => ?_
    have hnot := hends d hd
    rw [isWordChar_of_ruleOf hrule] at hnot
    cases hnot

theorem longest_of_blanks (hne : cs ≠ []) (hcs : ∀ c ∈ cs, isBlank c = true) (hds : ∀ d ∈ ds.head?, isBlank d = false) :
    Longest .whitespace cs ds := by
  refine longest_of_stop (admits_whitespace_iff.mpr ⟨hne, hcs⟩) fun d hd hrule => ?_
  have hnot := hds d hd
  rw [isBlank_of_ruleOf hrule] at hnot
  cases hnot

variable {source : String} {seen : List Char} {ts : List Token}

theorem tokensFrom_of_longest (h : Longest k cs ds) (hsource : source.toList = seen ++ cs ++ ds) :
    tokensFrom source (utf8Len seen) none (cs ++ ds) =
      if k.isTrivia then tokensFrom source (utf8Len (seen ++ cs)) none ds
      else Lexer.tokenAt seen k cs :: tokensFrom source (utf8Len (seen ++ cs)) none ds := by
  obtain ⟨c, cs, rfl⟩ := List.exists_cons_of_ne_nil (ne_nil_of_admits h.admits)
  have hstop : utf8Len seen + (String.ofList (c :: cs)).utf8ByteSize = utf8Len (seen ++ c :: cs) := by
    rw [String.utf8ByteSize_ofList, utf8Len_append]
  rw [List.cons_append, tokensFrom, longest?_of_longest h]
  simp only [List.take_left, List.drop_left, hstop, leftover, Option.map_none, Option.toList_none, List.nil_append]
  rw [Token.at, Span.slice_eq hsource]
  rfl

theorem tokensFrom_of_splits (h : Lexer.Splits seen cs ts) (hsource : source.toList = seen ++ cs) :
    tokensFrom source (utf8Len seen) none cs = ts := by
  induction h with
  | nil => rw [tokensFrom]; rfl
  | gap hne hblanks hrest _ ih =>
    rw [← List.append_assoc] at hsource
    rw [tokensFrom_of_longest (longest_of_blanks hne hblanks hrest) hsource]
    exact ih hsource
  | @token seen inner cs kind ts hpiece _ ih =>
    rw [← List.append_assoc] at hsource
    have htrivia : kind.isTrivia = false := decide_eq_false hpiece.kind_ne.1
    rw [tokensFrom_of_longest (longest_of_piece hpiece) hsource, htrivia, ih hsource]
    rfl

end Rules

theorem tokens_eq_lex {source : String} (hsize : source.utf8ByteSize < UInt32.size) :
    Rules.tokens source = lex source :=
  Rules.tokensFrom_of_splits (splits_lex hsize) rfl

end CallGrammar
