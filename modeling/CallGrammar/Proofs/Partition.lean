import CallGrammar.Proofs.LongestMatch

namespace CallGrammar

open Lexer
open String (utf8Len utf8Len_append)

structure Partitions (source : String) (ts : List Token) : Prop where
  start_lt {t : Token} : t ∈ ts → t.span.start < t.span.stop
  inText {t : Token} : t ∈ ts → t.span.InText source ∧ t.span.stop ≤ source.utf8ByteSize
  ordered : ts.Pairwise fun t u => t.span.stop ≤ u.span.start
  isBlank_iff {before after : List Char} {c : Char} : source.toList = before ++ c :: after →
    (isBlank c = true ↔ ∀ t ∈ ts, ¬ t.span.Covers (utf8Len before))
  piece {t : Token} : t ∈ ts → ∃ before inner after, source.toList = before ++ inner ++ after ∧
    Piece before after t.kind inner ∧ t.span = ⟨utf8Len before, utf8Len (before ++ inner)⟩
  text_eq {t : Token} : t ∈ ts → t.text = t.span.slice source
  kind_ne {t : Token} : t ∈ ts → t.kind ≠ .whitespace ∧ t.kind ≠ .garbage

inductive Joined : List String → List Char → Prop where
  | nil : Joined [] []
  | single (text : String) : Joined [text] text.toList
  | cons {text next : String} {texts : List String} {blanks cs : List Char} : blanks ≠ [] →
      (∀ c ∈ blanks, isBlank c = true) → Joined (next :: texts) cs →
      Joined (text :: next :: texts) (text.toList ++ (blanks ++ cs))

def Token.lexeme (t : Token) : TokenKind × String := (t.kind, t.text)

variable {source : String} {t : Token} {ts : List Token} {cs ds : List Char} {offset : Nat}

theorem exists_piece_of_mem_lex (hsize : source.utf8ByteSize < UInt32.size) (h : t ∈ lex source) :
    ∃ before inner after, source.toList = before ++ inner ++ after ∧ Piece before after t.kind inner ∧
      t = tokenAt before t.kind inner := by
  obtain ⟨between, kind, inner, after, hsource, hpiece, rfl⟩ := (splits_lex hsize).exists_of_mem h
  exact ⟨between, inner, after, hsource, hpiece, rfl⟩

theorem isBlank_iff_of_toList_eq (hsize : source.utf8ByteSize < UInt32.size) {before after : List Char} {c : Char}
    (h : source.toList = before ++ c :: after) :
    isBlank c = true ↔ ∀ t ∈ lex source, ¬ t.span.Covers (utf8Len before) := by
  constructor
  · intro hblank t ht hcovers
    obtain ⟨_, inner, _, _, hpiece, htoken⟩ := exists_piece_of_mem_lex hsize ht
    have hmem : c ∈ inner := by
      have hslice := hcovers.mem_slice h
      rwa [← (standsIn_of_mem_lex hsize ht).text_eq, htoken, tokenAt, String.toList_ofList] at hslice
    rw [hpiece.isBlank_eq_false hmem] at hblank
    cases hblank
  · intro hnone
    by_contra hblank
    rw [Bool.not_eq_true] at hblank
    obtain ⟨t, ht, hcovers⟩ := (splits_lex hsize).exists_covers h hblank
    exact hnone t ht hcovers

theorem partitions_lex (hsize : source.utf8ByteSize < UInt32.size) : Partitions source (lex source) where
  start_lt ht := (standsIn_of_mem_lex hsize ht).start_lt
  inText ht := by
    have hin := (standsIn_of_mem_lex hsize ht).inText
    exact ⟨hin, hin.stop_isValid.le_rawEndPos⟩
  ordered := (splits_lex hsize).ordered
  isBlank_iff := isBlank_iff_of_toList_eq hsize
  piece ht := by
    obtain ⟨before, inner, after, hsource, hpiece, htoken⟩ := exists_piece_of_mem_lex hsize ht
    exact ⟨before, inner, after, hsource, hpiece, by rw [htoken]; rfl⟩
  text_eq ht := (standsIn_of_mem_lex hsize ht).text_eq
  kind_ne ht := by
    obtain ⟨_, _, _, _, hpiece, _⟩ := exists_piece_of_mem_lex hsize ht
    exact hpiece.kind_ne

theorem exists_lexes_text (hsize : source.utf8ByteSize < UInt32.size) (h : t ∈ lex source) (offset : Nat) :
    ∃ u : Token, u.lexeme = t.lexeme ∧ Lexes offset t.text.toList [u] := by
  obtain ⟨before, inner, after, _, hpiece, htoken⟩ := exists_piece_of_mem_lex hsize h
  have htext : t.text = String.ofList inner := by rw [htoken]; rfl
  rw [Token.lexeme, htext, String.toList_ofList]
  generalize t.kind = kind at hpiece
  cases hpiece with
  | symbol hkind => exact ⟨_, by simp [Token.lexeme], (lexes_nil _).symbol hkind⟩
  | word hne hword =>
    have hinner : IsWord (String.ofList inner) := by simpa [IsWord] using ⟨hne, hword⟩
    have hlexes := lexes_word hinner offset
    rw [String.toList_ofList] at hlexes
    exact ⟨_, rfl, hlexes⟩

theorem ends_blanks {blanks : List Char} (hne : blanks ≠ []) (hblanks : ∀ c ∈ blanks, isBlank c = true) (cs : List Char) :
    Ends (blanks ++ cs) := by
  obtain ⟨c, rest, rfl⟩ := List.exists_cons_of_ne_nil hne
  exact ends_cons (isWordChar_of_isBlank (hblanks c List.mem_cons_self)) _

theorem exists_lexes_of_joined (hsize : source.utf8ByteSize < UInt32.size) {texts : List String}
    (h : Joined texts cs) (hts : ∀ t ∈ ts, t ∈ lex source) (htexts : ts.map (·.text) = texts) (offset : Nat) :
    ∃ us, Lexes offset cs us ∧ us.map Token.lexeme = ts.map Token.lexeme := by
  induction h generalizing ts offset with
  | nil =>
    obtain rfl := List.map_eq_nil_iff.mp htexts
    exact ⟨[], lexes_nil offset, rfl⟩
  | single text =>
    obtain ⟨t, rfl, rfl⟩ := List.map_eq_singleton_iff.mp htexts
    obtain ⟨u, hu, hlexes⟩ := exists_lexes_text hsize (hts t List.mem_cons_self) offset
    exact ⟨[u], hlexes, by rw [List.map_singleton, List.map_singleton, hu]⟩
  | @cons text next texts blanks cs hne hblanks _ ih =>
    obtain ⟨t, us, rfl, rfl, hus⟩ := List.map_eq_cons_iff.mp htexts
    obtain ⟨ht, hts⟩ := List.forall_mem_cons.mp hts
    obtain ⟨u, hu, hlexes⟩ := exists_lexes_text hsize ht offset
    obtain ⟨vs, hrest, hvs⟩ := ih hts hus (offset + utf8Len t.text.toList + utf8Len blanks)
    refine ⟨u :: vs, hlexes.append (hrest.blanks hblanks) (ends_blanks hne hblanks cs), ?_⟩
    rw [List.map_cons, List.map_cons, hu, hvs]

theorem lex_partitions (hsize : source.utf8ByteSize < UInt32.size) : lex? source = some (lex source) ∧
    Rules.tokens source = lex source ∧ Partitions source (lex source) ∧
    ∀ text : String, text.utf8ByteSize < UInt32.size → Joined ((lex source).map (·.text)) text.toList →
      (lex text).map Token.lexeme = (lex source).map Token.lexeme := by
  refine ⟨lex?_eq_some_lex hsize, tokens_eq_lex hsize, partitions_lex hsize, fun text htext h => ?_⟩
  obtain ⟨us, hlexes, hlexemes⟩ := exists_lexes_of_joined hsize h (fun t ht => ht) rfl 0
  rw [lex_of_lexes htext hlexes, hlexemes]

theorem lex_partitions_reblanked :
    "é:a|(b c)+".utf8ByteSize < UInt32.size ∧ "é :\t a\r\n| ( b\n\nc ) +".utf8ByteSize < UInt32.size ∧
    Joined ((lex "é:a|(b c)+").map (·.text)) "é :\t a\r\n| ( b\n\nc ) +".toList ∧
    (lex "é :\t a\r\n| ( b\n\nc ) +").map Token.lexeme = (lex "é:a|(b c)+").map Token.lexeme := by
  have hjoined : Joined ["é", ":", "a", "|", "(", "b", "c", ")", "+"] "é :\t a\r\n| ( b\n\nc ) +".toList :=
    @Joined.cons _ _ _ [' '] _ (by simp) (by simp [isBlank]) <|
    @Joined.cons _ _ _ ['\t', ' '] _ (by simp) (by simp [isBlank]) <|
    @Joined.cons _ _ _ ['\r', '\n'] _ (by simp) (by simp [isBlank]) <|
    @Joined.cons _ _ _ [' '] _ (by simp) (by simp [isBlank]) <|
    @Joined.cons _ _ _ [' '] _ (by simp) (by simp [isBlank]) <|
    @Joined.cons _ _ _ ['\n', '\n'] _ (by simp) (by simp [isBlank]) <|
    @Joined.cons _ _ _ [' '] _ (by simp) (by simp [isBlank]) <|
    @Joined.cons _ _ _ [' '] _ (by simp) (by simp [isBlank]) <|
    .single "+"
  have hsource : "é:a|(b c)+".utf8ByteSize < UInt32.size := by decide +kernel
  have htext : "é :\t a\r\n| ( b\n\nc ) +".utf8ByteSize < UInt32.size := by decide +kernel
  have htexts : (lex "é:a|(b c)+").map (·.text) = ["é", ":", "a", "|", "(", "b", "c", ")", "+"] := by decide +kernel
  rw [← htexts] at hjoined
  exact ⟨hsource, htext, hjoined, (lex_partitions hsource).2.2.2 _ htext hjoined⟩

end CallGrammar
