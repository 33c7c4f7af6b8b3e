import CallGrammar.Proofs.Lexer

namespace CallGrammar

open String (utf8Len utf8Len_append)

namespace Span

variable {s : Span} {offset : Nat} {cs before inner after : List Char}

theorem sliceFrom_append (s : Span) (offset : Nat) (cs ds : List Char) :
    s.sliceFrom offset (cs ++ ds) = s.sliceFrom offset cs ++ s.sliceFrom (offset + utf8Len cs) ds := by
  induction cs generalizing offset with
  | nil => rfl
  | cons c cs ih =>
    have hoffset : offset + c.utf8Size + utf8Len cs = offset + utf8Len (c :: cs) := by
      rw [String.utf8Len_cons, Nat.add_assoc, Nat.add_comm c.utf8Size]
    rw [List.cons_append, sliceFrom, sliceFrom, ih, hoffset]
    split <;> rfl

theorem sliceFrom_of_le_start (h : offset + utf8Len cs ≤ s.start) : s.sliceFrom offset cs = [] := by
  induction cs generalizing offset with
  | nil => rfl
  | cons c cs ih =>
    rw [String.utf8Len_cons] at h
    have hpos := c.utf8Size_pos
    rw [sliceFrom, if_neg (by omega)]
    exact ih (by omega)

theorem sliceFrom_of_stop_le (h : s.stop ≤ offset) : s.sliceFrom offset cs = [] := by
  induction cs generalizing offset with
  | nil => rfl
  | cons c cs ih =>
    rw [sliceFrom, if_neg (by omega)]
    exact ih (by omega)

theorem sliceFrom_eq_self (h : s.start ≤ offset) (h' : offset + utf8Len cs ≤ s.stop) : s.sliceFrom offset cs = cs := by
  induction cs generalizing offset with
  | nil => rfl
  | cons c cs ih =>
    rw [String.utf8Len_cons] at h'
    have hpos := c.utf8Size_pos
    rw [sliceFrom, if_pos (by omega), ih (by omega) (by omega)]

theorem slice_eq {source : String} (h : source.toList = before ++ inner ++ after) :
    slice ⟨utf8Len before, utf8Len (before ++ inner)⟩ source = String.ofList inner := by
  have hbefore : sliceFrom ⟨utf8Len before, utf8Len (before ++ inner)⟩ 0 before = [] :=
    sliceFrom_of_le_start (by simp)
  have hinner : sliceFrom ⟨utf8Len before, utf8Len (before ++ inner)⟩ (utf8Len before) inner = inner :=
    sliceFrom_eq_self (Nat.le_refl _) (by simp)
  have hafter : sliceFrom ⟨utf8Len before, utf8Len (before ++ inner)⟩ (utf8Len (before ++ inner)) after = [] :=
    sliceFrom_of_stop_le (Nat.le_refl _)
  rw [slice, h, sliceFrom_append, sliceFrom_append, Nat.zero_add, Nat.zero_add, hbefore, hinner, hafter,
    List.nil_append, List.append_nil]

def Covers (s : Span) (offset : Nat) : Prop := s.start ≤ offset ∧ offset < s.stop

theorem Covers.mem_slice {source : String} {c : Char} (h : s.Covers (utf8Len before))
    (hsource : source.toList = before ++ c :: after) : c ∈ (s.slice source).toList := by
  obtain ⟨hstart, hstop⟩ := h
  rw [slice, String.toList_ofList, hsource, sliceFrom_append, Nat.zero_add, sliceFrom, if_pos ⟨hstart, hstop⟩]
  exact List.mem_append_right _ List.mem_cons_self

end Span

namespace Lexer

variable {seen cs before inner after : List Char} {kind : TokenKind} {t : Token} {ts : List Token} {c : Char}

def Starts (seen : List Char) : Prop := ∀ c ∈ seen.getLast?, isWordChar c = false

inductive Piece (before after : List Char) : TokenKind → List Char → Prop where
  | symbol {c : Char} {kind : TokenKind} : TokenKind.ofChar? c = some kind → Piece before after kind [c]
  | word {inner : List Char} : inner ≠ [] → (∀ c ∈ inner, isWordChar c = true) → Starts before → Ends after →
      Piece before after .ident inner

def tokenAt (before : List Char) (kind : TokenKind) (inner : List Char) : Token :=
  ⟨kind, ⟨utf8Len before, utf8Len (before ++ inner)⟩, String.ofList inner⟩

inductive Splits : List Char → List Char → List Token → Prop where
  | nil (seen : List Char) : Splits seen [] []
  | gap {seen blanks cs : List Char} {ts : List Token} : blanks ≠ [] → (∀ c ∈ blanks, isBlank c = true) →
      (∀ c ∈ cs.head?, isBlank c = false) → Splits (seen ++ blanks) cs ts → Splits seen (blanks ++ cs) ts
  | token {seen inner cs : List Char} {kind : TokenKind} {ts : List Token} : Piece seen cs kind inner →
      Splits (seen ++ inner) cs ts → Splits seen (inner ++ cs) (tokenAt seen kind inner :: ts)

theorem isBlank_of_isWordChar (h : isWordChar c = true) : isBlank c = false := by
  rw [isWordChar, Bool.and_eq_true] at h
  simpa using h.1

theorem isWordChar_of_isBlank (h : isBlank c = true) : isWordChar c = false := by
  simp [isWordChar, h]

theorem Piece.ne_nil (h : Piece before after kind inner) : inner ≠ [] := by
  cases h with
  | symbol => simp
  | word hne => exact hne

theorem Piece.isBlank_eq_false (h : Piece before after kind inner) (hc : c ∈ inner) : isBlank c = false := by
  cases h with
  | symbol hkind =>
    obtain rfl := List.mem_singleton.mp hc
    exact isBlank_of_ofChar? hkind
  | word _ hword => exact isBlank_of_isWordChar (hword c hc)

theorem Piece.kind_ne (h : Piece before after kind inner) : kind ≠ .whitespace ∧ kind ≠ .garbage := by
  cases h with
  | symbol hkind =>
    unfold TokenKind.ofChar? at hkind
    split at hkind <;> cases hkind <;> simp
  | word => simp

theorem starts_append (hne : inner ≠ []) (h : ∀ c ∈ inner, isWordChar c = false) : Starts (seen ++ inner) := by
  intro c hc
  rw [List.getLast?_append_of_ne_nil _ hne] at hc
  exact h c (List.mem_of_getLast? hc)

theorem exists_run {p : Char → Bool} (hc : p c = true) (cs : List Char) : ∃ run rest, c :: cs = run ++ rest ∧
    run ≠ [] ∧ (∀ d ∈ run, p d = true) ∧ ∀ d ∈ rest.head?, p d = false := by
  refine ⟨(c :: cs).takeWhile p, (c :: cs).dropWhile p, List.takeWhile_append_dropWhile.symm, by simp [hc], ?_, ?_⟩
  · exact List.all_eq_true.mp List.all_takeWhile
  · intro d hd
    have hnot := List.head?_dropWhile_not p (c :: cs)
    rw [Option.mem_def.mp hd] at hnot
    simpa using hnot

theorem scan_blanks {blanks : List Char} (h : ∀ c ∈ blanks, isBlank c = true) (offset : Nat) (cs : List Char) :
    scan offset none (blanks ++ cs) = scan (offset + utf8Len blanks) none cs := by
  induction blanks generalizing offset with
  | nil => rfl
  | cons c blanks ih =>
    obtain ⟨hc, hblanks⟩ := List.forall_mem_cons.mp h
    rw [List.cons_append, scan, if_pos hc]
    simp [close, ih hblanks, Nat.add_assoc, Nat.add_comm c.utf8Size]

theorem scan_piece (h : Piece seen cs kind inner) : scan (utf8Len seen) none (inner ++ cs) =
    tokenAt seen kind inner :: scan (utf8Len (seen ++ inner)) none cs := by
  cases h with
  | @symbol c kind hkind =>
    rw [List.singleton_append, scan, isBlank_of_ofChar? hkind, hkind]
    simp [close, tokenAt]
  | word hne hword _ hends =>
    have hinner : IsWord (String.ofList inner) := by simpa [IsWord] using ⟨hne, hword⟩
    have hlexes := lexes_word hinner (utf8Len seen) cs hends
    rw [String.toList_ofList, ← utf8Len_append] at hlexes
    exact hlexes

theorem exists_piece (h : Starts seen ∨ Ends (c :: cs)) (hblank : isBlank c = false) : ∃ kind inner rest,
    c :: cs = inner ++ rest ∧ Piece seen rest kind inner ∧ (Starts (seen ++ inner) ∨ Ends rest) := by
  cases hkind : TokenKind.ofChar? c with
  | some kind =>
    have hstarts : Starts (seen ++ [c]) := starts_append (by simp) (by simpa using isWordChar_of_ofChar? hkind)
    exact ⟨kind, [c], cs, rfl, .symbol hkind, .inl hstarts⟩
  | none =>
    have hword : isWordChar c = true := by simp [isWordChar, hblank, hkind]
    have hstarts : Starts seen := h.resolve_right fun hends => by simp [hends c rfl] at hword
    obtain ⟨inner, rest, heq, hne, hinner, hrest⟩ := exists_run hword cs
    exact ⟨.ident, inner, rest, heq, .word hne hinner hstarts hrest, .inr hrest⟩

theorem splits_scan (h : Starts seen ∨ Ends cs) : Splits seen cs (scan (utf8Len seen) none cs) := by
  induction hlength : cs.length using Nat.strong_induction_on generalizing seen cs with
  | _ n ih =>
    subst hlength
    cases cs with
    | nil => exact .nil seen
    | cons c cs =>
      cases hblank : isBlank c with
      | true =>
        obtain ⟨blanks, rest, heq, hne, hblanks, hrest⟩ := exists_run hblank cs
        have hstarts : Starts (seen ++ blanks) := starts_append hne fun d hd => isWordChar_of_isBlank (hblanks d hd)
        have hlt : rest.length < (blanks ++ rest).length := by simp [List.length_pos_iff.mpr hne]
        rw [heq, scan_blanks hblanks, ← utf8Len_append]
        exact .gap hne hblanks hrest (ih _ (heq ▸ hlt) (.inl hstarts) rfl)
      | false =>
        obtain ⟨kind, inner, rest, heq, hpiece, hnext⟩ := exists_piece h hblank
        have hlt : rest.length < (inner ++ rest).length := by simp [List.length_pos_iff.mpr hpiece.ne_nil]
        rw [heq, scan_piece hpiece]
        exact .token hpiece (ih _ (heq ▸ hlt) hnext rfl)

theorem Splits.exists_of_mem (h : Splits seen cs ts) (ht : t ∈ ts) : ∃ between kind inner after,
    cs = between ++ inner ++ after ∧ Piece (seen ++ between) after kind inner ∧ t = tokenAt (seen ++ between) kind inner := by
  induction h with
  | nil => exact absurd ht List.not_mem_nil
  | @gap seen blanks cs ts _ _ _ _ ih =>
    obtain ⟨between, kind, inner, after, rfl, hpiece, rfl⟩ := ih ht
    exact ⟨blanks ++ between, kind, inner, after, by simp, by simpa using hpiece, by simp⟩
  | @token seen inner cs kind ts hpiece _ ih =>
    rcases List.mem_cons.mp ht with rfl | ht
    · exact ⟨[], kind, inner, cs, by simp, by simpa using hpiece, by simp⟩
    · obtain ⟨between, kind', inner', after, rfl, hpiece', rfl⟩ := ih ht
      exact ⟨inner ++ between, kind', inner', after, by simp, by simpa using hpiece', by simp⟩

theorem Splits.le_start (h : Splits seen cs ts) (ht : t ∈ ts) : utf8Len seen ≤ t.span.start := by
  obtain ⟨between, kind, inner, after, _, _, rfl⟩ := h.exists_of_mem ht
  rw [tokenAt, utf8Len_append]
  exact Nat.le_add_right _ _

theorem Splits.ordered (h : Splits seen cs ts) : ts.Pairwise fun t u => t.span.stop ≤ u.span.start := by
  induction h with
  | nil => exact .nil
  | gap _ _ _ _ ih => exact ih
  | token _ hrest ih => exact .cons (fun u hu => hrest.le_start hu) ih

theorem Splits.exists_first (h : Splits seen cs (t :: ts)) : ∃ blanks kind inner rest, cs = blanks ++ inner ++ rest ∧
    (∀ c ∈ blanks, isBlank c = true) ∧ Piece (seen ++ blanks) rest kind inner ∧
    t = tokenAt (seen ++ blanks) kind inner ∧ Splits (seen ++ blanks ++ inner) rest ts := by
  generalize hus : t :: ts = us at h
  induction h with
  | nil => cases hus
  | @gap seen blanks cs ts _ hblanks _ _ ih =>
    obtain ⟨blanks', kind, inner, rest, rfl, hblanks', hpiece, rfl, hrest⟩ := ih hus
    refine ⟨blanks ++ blanks', kind, inner, rest, by simp, List.forall_mem_append.mpr ⟨hblanks, hblanks'⟩, ?_, by simp, ?_⟩
    · simpa using hpiece
    · simpa using hrest
  | @token seen inner cs kind ts hpiece hrest =>
    obtain ⟨rfl, rfl⟩ := List.cons.inj hus
    exact ⟨[], kind, inner, cs, by simp, nofun, by simpa using hpiece, by simp, by simpa using hrest⟩

theorem Splits.exists_append {us : List Token} (h : Splits seen cs (us ++ ts)) :
    ∃ ds es, cs = ds ++ es ∧ Splits (seen ++ ds) es ts := by
  induction us generalizing seen cs with
  | nil => exact ⟨[], cs, rfl, by simpa using h⟩
  | cons u us ih =>
    obtain ⟨blanks, _, inner, rest, rfl, _, _, _, hrest⟩ := h.exists_first
    obtain ⟨ds, es, rfl, hes⟩ := ih hrest
    exact ⟨blanks ++ inner ++ ds, es, by simp, by simpa using hes⟩

theorem mem_or_of_append_eq {as bs xs ys : List Char} (h : as ++ bs = xs ++ c :: ys) :
    (c ∈ as ∧ utf8Len xs < utf8Len as) ∨ ∃ zs, xs = as ++ zs ∧ bs = zs ++ c :: ys := by
  rcases List.append_eq_append_iff.mp h with ⟨zs, hxs, hbs⟩ | ⟨zs, has, hzs⟩
  · exact .inr ⟨zs, hxs, hbs⟩
  · cases zs with
    | nil => exact .inr ⟨[], by simpa using has.symm, by simpa using hzs.symm⟩
    | cons z zs =>
      obtain ⟨rfl, _⟩ := List.cons.inj hzs
      have hpos := c.utf8Size_pos
      refine .inl ⟨by simp [has], ?_⟩
      rw [has, utf8Len_append, String.utf8Len_cons]
      omega

theorem Splits.exists_covers {xs ys : List Char} (h : Splits seen cs ts) (hcs : cs = xs ++ c :: ys)
    (hc : isBlank c = false) : ∃ t ∈ ts, t.span.Covers (utf8Len (seen ++ xs)) := by
  induction h generalizing xs with
  | nil => simp at hcs
  | gap _ hblanks _ _ ih =>
    rcases mem_or_of_append_eq hcs with ⟨hmem, _⟩ | ⟨zs, rfl, hrest⟩
    · exact absurd (hblanks c hmem) (by simp [hc])
    · rw [← List.append_assoc]
      exact ih hrest
  | token _ _ ih =>
    rcases mem_or_of_append_eq hcs with ⟨_, hlt⟩ | ⟨zs, rfl, hrest⟩
    · refine ⟨_, List.mem_cons_self, ?_⟩
      simpa [Span.Covers, tokenAt] using hlt
    · obtain ⟨t, ht, hcovers⟩ := ih hrest
      rw [List.append_assoc] at hcovers
      exact ⟨t, List.mem_cons_of_mem _ ht, hcovers⟩

end Lexer

theorem Lexer.splits_tokens (source : String) : Lexer.Splits [] source.toList (Lexer.tokens source) :=
  Lexer.splits_scan (.inl nofun)

namespace Token

variable {source : String} {t : Token}

theorem StandsIn.text_eq (h : t.StandsIn source.toList) : t.text = t.span.slice source := by
  obtain ⟨before, inner, after, hsource, _, hspan, htext, _⟩ := h
  rw [htext, hspan, Span.slice_eq hsource]

theorem StandsIn.span_cut (h : t.StandsIn source.toList) (hsize : source.utf8ByteSize < UInt32.size) :
    t.span.cut = t.span := by
  have hstop : t.span.stop ≤ source.utf8ByteSize := h.inText.stop_isValid.le_rawEndPos
  have hle := h.inText.le
  rw [Span.cut, Nat.mod_eq_of_lt (by omega), Nat.mod_eq_of_lt (by omega)]

theorem StandsIn.span_cut? (h : t.StandsIn source.toList) (hsize : source.utf8ByteSize < UInt32.size) :
    t.span.cut? = some t.span := by
  rw [Span.cut?, h.span_cut hsize, if_pos h.inText.le]

theorem StandsIn.cut_eq (h : t.StandsIn source.toList) (hsize : source.utf8ByteSize < UInt32.size) :
    t.cut source = t := by
  rw [cut, h.span_cut hsize, Token.at, ← h.text_eq]

end Token

section

variable {source : String} {t : Token} {ts : List Token}

theorem lex_eq_tokens (hsize : source.utf8ByteSize < UInt32.size) : lex source = Lexer.tokens source := by
  rw [lex, List.map_congr_left fun t ht => (Lexer.standsIn_of_mem_tokens ht).cut_eq hsize, List.map_id']

theorem lex?_eq_some_lex (hsize : source.utf8ByteSize < UInt32.size) : lex? source = some (lex source) := by
  refine if_pos (List.all_eq_true.mpr fun t ht => ?_)
  rw [(Lexer.standsIn_of_mem_tokens ht).span_cut? hsize, Option.isSome_some]

theorem endOffset_eq (hsize : source.utf8ByteSize < UInt32.size) : endOffset source = source.utf8ByteSize :=
  Nat.mod_eq_of_lt hsize

theorem lex_of_lexes (hsize : source.utf8ByteSize < UInt32.size) (h : Lexer.Lexes 0 source.toList ts) :
    lex source = ts :=
  (lex_eq_tokens hsize).trans (Lexer.tokens_of_lexes h)

theorem standsIn_of_mem_lex (hsize : source.utf8ByteSize < UInt32.size) (h : t ∈ lex source) :
    t.StandsIn source.toList :=
  Lexer.standsIn_of_mem_tokens (lex_eq_tokens hsize ▸ h)

theorem splits_lex (hsize : source.utf8ByteSize < UInt32.size) : Lexer.Splits [] source.toList (lex source) :=
  lex_eq_tokens hsize ▸ Lexer.splits_tokens source

end

end CallGrammar
