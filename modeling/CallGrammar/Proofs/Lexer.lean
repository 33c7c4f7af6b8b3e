import CallGrammar.Token.Lexer
import Mathlib.Data.String.Basic

namespace CallGrammar

open String (utf8Len utf8Len_append)

theorem utf8Len_replicate (n : Nat) (c : Char) : utf8Len (List.replicate n c) = n * c.utf8Size := by
  induction n with
  | zero => simp
  | succ n ih => rw [List.replicate_succ, String.utf8Len_cons, ih, Nat.succ_mul]

theorem isValid_of_toList_eq {source : String} {before after : List Char} (h : source.toList = before ++ after) :
    String.Pos.Raw.IsValid source ⟨utf8Len before⟩ := by
  apply String.Pos.Raw.isValid_iff_exists_append.mpr
  refine ⟨String.ofList before, String.ofList after, ?_, ?_⟩
  · rw [← String.ofList_append, ← h, String.ofList_toList]
  · rw [String.rawEndPos, String.utf8ByteSize_ofList]

theorem Span.inText_point (source : String) : (Span.point source.utf8ByteSize).InText source where
  le := Nat.le_refl _
  start_isValid := String.Pos.Raw.isValid_rawEndPos
  stop_isValid := String.Pos.Raw.isValid_rawEndPos

def Token.StandsIn (t : Token) (text : List Char) : Prop :=
  ∃ before inner after, text = before ++ inner ++ after ∧ inner ≠ [] ∧
    t.span = ⟨utf8Len before, utf8Len (before ++ inner)⟩ ∧ t.text = String.ofList inner ∧
    (t.kind = .ident → ∀ c ∈ inner, isWordChar c = true)

def IsWord (text : String) : Prop := text.toList ≠ [] ∧ ∀ c ∈ text.toList, isWordChar c = true

instance (text : String) : Decidable (IsWord text) :=
  decidable_of_iff (text.toList ≠ [] ∧ text.toList.all isWordChar = true) (by rw [IsWord, List.all_eq_true])

theorem Token.StandsIn.isWord {t : Token} {text : List Char} (h : t.StandsIn text) (ht : t.kind = .ident) :
    IsWord t.text := by
  obtain ⟨_, inner, _, _, hne, _, htext, hword⟩ := h
  rw [IsWord, htext, String.toList_ofList]
  exact ⟨hne, hword ht⟩

theorem Token.StandsIn.inText {t : Token} {source : String} (h : t.StandsIn source.toList) : t.span.InText source := by
  obtain ⟨before, inner, after, htext, _, hspan, _⟩ := h
  rw [hspan]
  refine ⟨?_, isValid_of_toList_eq (by rw [htext, List.append_assoc]), isValid_of_toList_eq htext⟩
  rw [utf8Len_append]
  exact Nat.le_add_right _ _

theorem Token.StandsIn.start_lt {t : Token} {text : List Char} (h : t.StandsIn text) : t.span.start < t.span.stop := by
  obtain ⟨before, inner, after, _, hinner, hspan, _⟩ := h
  have hpos : 0 < utf8Len inner := Nat.pos_of_ne_zero fun hzero => hinner (String.utf8Len_eq_zero.mp hzero)
  rw [hspan, utf8Len_append]
  exact Nat.lt_add_of_pos_right hpos

theorem ofChar?_ne_ident {c : Char} {kind : TokenKind} (h : TokenKind.ofChar? c = some kind) : kind ≠ .ident := by
  rintro rfl
  unfold TokenKind.ofChar? at h
  split at h <;> cases h

namespace Lexer

variable {seen cs rest : List Char} {offset : Nat} {word : Option Word} {w : Word} {c : Char} {t : Token}

structure At (seen : List Char) (offset : Nat) (word : Option Word) : Prop where
  offset_eq : offset = utf8Len seen
  word {w : Word} : word = some w → ∃ before, seen = before ++ w.reversed.reverse ∧ w.start = utf8Len before ∧
    w.reversed ≠ [] ∧ ∀ c ∈ w.reversed, isWordChar c = true

theorem at_nil : At [] 0 none where
  offset_eq := rfl
  word hw := by cases hw

theorem At.next (h : At seen offset word) (c : Char) : At (seen ++ [c]) (offset + c.utf8Size) none where
  offset_eq := by rw [h.offset_eq, utf8Len_append]; simp
  word hw := by cases hw

theorem At.extend (h : At seen offset word) (hc : isWordChar c = true) :
    At (seen ++ [c]) (offset + c.utf8Size) (some (extend word offset c)) where
  offset_eq := (h.next c).offset_eq
  word {w} hw := by
    obtain rfl := Option.some.inj hw
    cases word with
    | none => exact ⟨seen, rfl, h.offset_eq, by simp [Lexer.extend], by simpa [Lexer.extend] using hc⟩
    | some w =>
      obtain ⟨before, hseen, hstart, _, hword⟩ := h.word rfl
      refine ⟨before, ?_, hstart, by simp [Lexer.extend], ?_⟩
      · simp [Lexer.extend, hseen]
      · simpa [Lexer.extend, hc] using hword

theorem At.standsIn (h : At seen offset (some w)) (rest : List Char) : (Word.token w offset).StandsIn (seen ++ rest) := by
  obtain ⟨before, hseen, hstart, hne, hword⟩ := h.word rfl
  refine ⟨before, w.reversed.reverse, rest, by rw [hseen], by simpa using hne, ?_, rfl, ?_⟩
  · rw [← hseen, ← h.offset_eq, ← hstart]
    rfl
  · intro _ c hc
    exact hword c (List.mem_reverse.mp hc)

theorem mem_close {stop : Nat} {tokens : List Token} (h : t ∈ close word stop tokens) :
    (∃ w, word = some w ∧ t = Word.token w stop) ∨ t ∈ tokens := by
  cases word with
  | none => exact .inr h
  | some w => exact (List.mem_cons.mp h).imp_left fun ht => ⟨w, rfl, ht⟩

theorem standsIn_of_mem_scan (hat : At seen offset word) (ht : t ∈ scan offset word cs) : t.StandsIn (seen ++ cs) := by
  induction cs generalizing seen offset word with
  | nil =>
    rcases mem_close ht with ⟨w, rfl, rfl⟩ | ht
    · exact hat.standsIn []
    · exact absurd ht List.not_mem_nil
  | cons c cs ih =>
    have hseen : seen ++ c :: cs = seen ++ [c] ++ cs := List.append_cons seen c cs
    rw [scan] at ht
    split at ht
    · rcases mem_close ht with ⟨w, rfl, rfl⟩ | ht
      · exact hat.standsIn (c :: cs)
      · exact hseen ▸ ih (hat.next c) ht
    · rename_i hblank
      split at ht
      · rename_i kind hkind
        rcases mem_close ht with ⟨w, rfl, rfl⟩ | ht
        · exact hat.standsIn (c :: cs)
        · rcases List.mem_cons.mp ht with rfl | ht
          · refine ⟨seen, [c], cs, hseen, by simp, ?_, rfl, fun h => absurd h (ofChar?_ne_ident hkind)⟩
            rw [← (hat.next c).offset_eq, ← hat.offset_eq]
          · exact hseen ▸ ih (hat.next c) ht
      · rename_i hkind
        have hc : isWordChar c = true := by simp [isWordChar, hblank, hkind]
        exact hseen ▸ ih (hat.extend hc) ht

def Ends (rest : List Char) : Prop := ∀ c ∈ rest.head?, isWordChar c = false

def Lexes (offset : Nat) (cs : List Char) (ts : List Token) : Prop :=
  ∀ rest, Ends rest → scan offset none (cs ++ rest) = ts ++ scan (offset + utf8Len cs) none rest

theorem ends_cons (hc : isWordChar c = false) (cs : List Char) : Ends (c :: cs) := by
  intro d hd
  rwa [← Option.some.inj hd]

theorem isBlank_of_ofChar? {kind : TokenKind} (h : TokenKind.ofChar? c = some kind) : isBlank c = false := by
  unfold TokenKind.ofChar? at h
  split at h
  case h_8 => cases h
  all_goals rfl

theorem isWordChar_of_ofChar? {kind : TokenKind} (h : TokenKind.ofChar? c = some kind) : isWordChar c = false := by
  simp [isWordChar, h]

theorem Lexes.append {ds : List Char} {ts us : List Token} (h : Lexes offset cs ts)
    (h' : Lexes (offset + utf8Len cs) ds us) (hds : Ends ds) : Lexes offset (cs ++ ds) (ts ++ us) := by
  intro rest hrest
  have hboth : Ends (ds ++ rest) := by
    cases ds with
    | nil => exact hrest
    | cons d ds => exact hds
  rw [List.append_assoc, h _ hboth, h' rest hrest, utf8Len_append, List.append_assoc, Nat.add_assoc]

theorem Lexes.symbol {kind : TokenKind} {ts : List Token} (hkind : TokenKind.ofChar? c = some kind)
    (h : Lexes (offset + c.utf8Size) cs ts) :
    Lexes offset (c :: cs) (⟨kind, ⟨offset, offset + c.utf8Size⟩, String.singleton c⟩ :: ts) := by
  intro rest hrest
  rw [List.cons_append, scan, isBlank_of_ofChar? hkind, hkind]
  simp [close, h rest hrest, Nat.add_assoc, Nat.add_comm c.utf8Size]

theorem Lexes.blank {ts : List Token} (hc : isBlank c = true) (h : Lexes (offset + c.utf8Size) cs ts) :
    Lexes offset (c :: cs) ts := by
  intro rest hrest
  rw [List.cons_append, scan, if_pos hc]
  simp [close, h rest hrest, Nat.add_assoc, Nat.add_comm c.utf8Size]

theorem Lexes.blanks {blanks : List Char} {ts : List Token} (hblanks : ∀ c ∈ blanks, isBlank c = true)
    (h : Lexes (offset + utf8Len blanks) cs ts) : Lexes offset (blanks ++ cs) ts := by
  induction blanks generalizing offset with
  | nil => exact h
  | cons c blanks ih =>
    obtain ⟨hc, hblanks⟩ := List.forall_mem_cons.mp hblanks
    rw [String.utf8Len_cons, Nat.add_comm (utf8Len blanks), ← Nat.add_assoc] at h
    exact (ih hblanks h).blank hc

theorem lexes_nil (offset : Nat) : Lexes offset [] [] := fun _ _ => rfl

theorem scan_word (hcs : ∀ c ∈ cs, isWordChar c = true) (hrest : Ends rest) : scan offset (some w) (cs ++ rest) =
    Word.token ⟨w.start, cs.reverse ++ w.reversed⟩ (offset + utf8Len cs) :: scan (offset + utf8Len cs) none rest := by
  induction cs generalizing offset w with
  | nil =>
    cases rest with
    | nil => rfl
    | cons c rest =>
      have hc := hrest c rfl
      rw [List.nil_append, scan, scan]
      by_cases hblank : isBlank c = true
      · rw [if_pos hblank, if_pos hblank]
        rfl
      · rw [if_neg hblank, if_neg hblank]
        cases hkind : TokenKind.ofChar? c with
        | none => simp [isWordChar, hblank, hkind] at hc
        | some kind => rfl
  | cons c cs ih =>
    obtain ⟨hc, hcs⟩ := List.forall_mem_cons.mp hcs
    have hword : isBlank c = false ∧ TokenKind.ofChar? c = none := by simpa [isWordChar] using hc
    rw [List.cons_append, scan, hword.1, hword.2]
    simp [ih hcs, extend, Nat.add_assoc, Nat.add_comm c.utf8Size]

theorem lexes_word {word : String} (h : IsWord word) (offset : Nat) :
    Lexes offset word.toList [⟨.ident, ⟨offset, offset + utf8Len word.toList⟩, word⟩] := by
  intro rest hrest
  obtain ⟨hne, hword⟩ := h
  cases hcs : word.toList with
  | nil => exact absurd hcs hne
  | cons c cs =>
    rw [hcs] at hword
    obtain ⟨hc, htail⟩ := List.forall_mem_cons.mp hword
    have hfirst : isBlank c = false ∧ TokenKind.ofChar? c = none := by simpa [isWordChar] using hc
    have htext : String.ofList (c :: cs) = word := by rw [← hcs, String.ofList_toList]
    rw [List.cons_append, scan, hfirst.1, hfirst.2]
    simp [scan_word htail hrest, extend, Word.token, htext, Nat.add_assoc, Nat.add_comm c.utf8Size]

end Lexer

theorem Lexer.tokens_of_lexes {source : String} {ts : List Token} (h : Lexer.Lexes 0 source.toList ts) :
    Lexer.tokens source = ts := by
  have hall := h [] nofun
  rwa [List.append_nil, Lexer.scan, Lexer.close, List.append_nil] at hall

theorem Lexer.standsIn_of_mem_tokens {source : String} {t : Token} (h : t ∈ Lexer.tokens source) :
    t.StandsIn source.toList :=
  Lexer.standsIn_of_mem_scan Lexer.at_nil h

end CallGrammar
