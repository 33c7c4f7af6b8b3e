import CallGrammar.Json
import Mathlib.Data.String.Basic

namespace CallGrammar.Json

def spaces : List Char := [' ', '\n', '\r', '\t']

def skip (cs : List Char) : List Char := cs.dropWhile (· ∈ spaces)

def escapes : List (Char × Char) :=
  [('"', '"'), ('\\', '\\'), ('/', '/'), ('b', '\x08'), ('f', '\x0c'), ('n', '\n'), ('r', '\r'), ('t', '\t')]

def hexValue (c : Char) : Nat := if c.isDigit then c.toNat - 48 else c.toNat - 87

def readText : List Char → Option (List Char × List Char)
  | [] => none
  | '"' :: cs => some ([], cs)
  | '\\' :: 'u' :: a :: b :: c :: d :: cs =>
      let code := ((hexValue a * 16 + hexValue b) * 16 + hexValue c) * 16 + hexValue d
      (readText cs).map fun (text, rest) => (Char.ofNat code :: text, rest)
  | '\\' :: e :: cs => do
      let c ← escapes.lookup e
      let (text, rest) ← readText cs
      some (c :: text, rest)
  | c :: cs => (readText cs).map fun (text, rest) => (c :: text, rest)

def readNat (cs : List Char) : Option (Json × List Char) :=
  let digits := cs.takeWhile Char.isDigit
  if digits = [] then none else some (.nat (Nat.ofDigitChars 10 digits 0), cs.dropWhile Char.isDigit)

mutual

def readValue : Nat → List Char → Option (Json × List Char)
  | 0, _ => none
  | fuel + 1, cs =>
      match skip cs with
      | 't' :: 'r' :: 'u' :: 'e' :: rest => some (.bool true, rest)
      | 'f' :: 'a' :: 'l' :: 's' :: 'e' :: rest => some (.bool false, rest)
      | '"' :: cs => do
          let (text, rest) ← readText cs
          some (.str (String.ofList text), rest)
      | '[' :: cs =>
          match skip cs with
          | ']' :: rest => some (.arr [], rest)
          | _ => do
              let (j, rest) ← readValue fuel cs
              let (js, rest) ← readItems fuel rest
              some (.arr (j :: js), rest)
      | '\x7b' :: cs =>
          match skip cs with
          | '\x7d' :: rest => some (.obj [], rest)
          | _ => do
              let (member, rest) ← readMember fuel cs
              let (members, rest) ← readMembers fuel rest
              some (.obj (member :: members), rest)
      | cs => readNat cs

def readItems : Nat → List Char → Option (List Json × List Char)
  | 0, _ => none
  | fuel + 1, cs =>
      match skip cs with
      | ']' :: rest => some ([], rest)
      | ',' :: cs => do
          let (j, rest) ← readValue fuel cs
          let (js, rest) ← readItems fuel rest
          some (j :: js, rest)
      | _ => none

def readMember : Nat → List Char → Option ((String × Json) × List Char)
  | 0, _ => none
  | fuel + 1, cs =>
      match skip cs with
      | '"' :: cs => do
          let (key, rest) ← readText cs
          match skip rest with
          | ':' :: cs => do
              let (j, rest) ← readValue fuel cs
              some ((String.ofList key, j), rest)
          | _ => none
      | _ => none

def readMembers : Nat → List Char → Option (List (String × Json) × List Char)
  | 0, _ => none
  | fuel + 1, cs =>
      match skip cs with
      | '\x7d' :: rest => some ([], rest)
      | ',' :: cs => do
          let (member, rest) ← readMember fuel cs
          let (members, rest) ← readMembers fuel rest
          some (member :: members, rest)
      | _ => none

end

def read? (text : String) : Option Json :=
  match readValue (text.length + 1) text.toList with
  | some (j, rest) => if skip rest = [] then some j else none
  | none => none

section

variable {cs rest : List Char} {c : Char}

theorem skip_cons_of_notMem (h : c ∉ spaces) (cs : List Char) : skip (c :: cs) = c :: cs := by
  simp [skip, h]

theorem skip_lineEnd (layout : Layout) (cs : List Char) : skip (layout.lineEnd.toList ++ cs) = skip cs := by
  rw [skip, skip, List.dropWhile_append_of_pos]
  cases layout with
  | line => simp [Layout.lineEnd]
  | indented depth => simp +contextual [Layout.lineEnd, spaces, or_imp]

theorem skip_space (cs : List Char) : skip (' ' :: cs) = skip cs := by
  simp [skip, spaces]

theorem lookup_escapes : ∀ e ∈ escapes, escapes.lookup e.1 = some e.2 := by decide

theorem hexValue_hexDigit : ∀ n < 16, hexValue (hexDigit n) = n := by decide

theorem readText_escape {e : Char} (h : (e, c) ∈ escapes) (cs : List Char) :
    readText ('\\' :: e :: cs) = (readText cs).map fun (text, rest) => (c :: text, rest) := by
  have hlookup := lookup_escapes (e, c) h
  have hne : e ≠ 'u' := by
    rintro rfl
    simp [escapes] at h
  rw [readText]
  · rw [hlookup]
    cases readText cs <;> rfl
  · simp_all

theorem readText_control (h : c.toNat < 32) (cs : List Char) :
    readText ('\\' :: 'u' :: '0' :: '0' :: hexDigit (c.toNat / 16) :: hexDigit (c.toNat % 16) :: cs) =
      (readText cs).map fun (text, rest) => (c :: text, rest) := by
  have hzero : hexValue '0' = 0 := by decide
  have hcode : c.toNat / 16 * 16 + c.toNat % 16 = c.toNat := by omega
  rw [readText, hexValue_hexDigit _ (by omega), hexValue_hexDigit _ (by omega), hzero]
  simp only [Nat.zero_mul, Nat.zero_add, hcode, Char.ofNat_toNat]

theorem readText_plain (hquote : c ≠ '"') (hslash : c ≠ '\\') (cs : List Char) :
    readText (c :: cs) = (readText cs).map fun (text, rest) => (c :: text, rest) := by
  rw [readText.eq_def]
  split <;> simp_all

theorem readText_escapeChar (c : Char) (cs : List Char) :
    readText (escapeChar c ++ cs) = (readText cs).map fun (text, rest) => (c :: text, rest) := by
  unfold escapeChar
  split_ifs with hquote hslash hback hfeed hline hreturn htab hcontrol
  · exact readText_escape (by simp [hquote, escapes]) cs
  · exact readText_escape (by simp [hslash, escapes]) cs
  · exact readText_escape (by simp [hback, escapes]) cs
  · exact readText_escape (by simp [hfeed, escapes]) cs
  · exact readText_escape (by simp [hline, escapes]) cs
  · exact readText_escape (by simp [hreturn, escapes]) cs
  · exact readText_escape (by simp [htab, escapes]) cs
  · exact readText_control hcontrol cs
  · exact readText_plain hquote hslash cs

theorem readText_flatMap (cs rest : List Char) : readText (cs.flatMap escapeChar ++ '"' :: rest) = some (cs, rest) := by
  induction cs with
  | nil => rfl
  | cons c cs ih => rw [List.flatMap_cons, List.append_assoc, readText_escapeChar, ih, Option.map_some]

theorem quote_toList (text : String) : (quote text).toList = '"' :: (text.toList.flatMap escapeChar ++ ['"']) := by
  simp [quote]

def Stops (rest : List Char) : Prop := ∀ c ∈ rest.head?, c.isDigit = false

theorem stops_cons (h : c.isDigit = false) (rest : List Char) : Stops (c :: rest) := by
  intro d hd
  rwa [← Option.some.inj hd]

theorem stops_lineEnd (layout : Layout) (h : Stops rest) : Stops (layout.lineEnd.toList ++ rest) := by
  cases layout with
  | line => simpa [Layout.lineEnd] using h
  | indented depth => simpa [Layout.lineEnd] using stops_cons (by decide) _

theorem stops_writeItems (layout : Layout) (js : List Json) (rest : List Char) :
    Stops ((writeItems layout js).toList ++ rest) := by
  cases js with
  | nil => simpa [writeItems] using stops_lineEnd layout (stops_cons (by decide) rest)
  | cons j js => simpa [writeItems] using stops_cons (by decide) _

theorem stops_writeMembers (layout : Layout) (members : List (String × Json)) (rest : List Char) :
    Stops ((writeMembers layout members).toList ++ rest) := by
  cases members with
  | nil => simpa [writeMembers] using stops_lineEnd layout (stops_cons (by decide) rest)
  | cons member members => simpa [writeMembers] using stops_cons (by decide) _

theorem readNat_toDigits (n : Nat) (h : Stops rest) : readNat (Nat.toDigits 10 n ++ rest) = some (.nat n, rest) := by
  have hdigits : ∀ c ∈ Nat.toDigits 10 n, c.isDigit = true := fun c hc =>
    Nat.isDigit_of_mem_toDigits (by decide) (by decide) hc
  have hrest : rest.takeWhile Char.isDigit = [] ∧ rest.dropWhile Char.isDigit = rest := by
    cases rest with
    | nil => exact ⟨rfl, rfl⟩
    | cons c rest => simp [h c rfl]
  rw [readNat, List.takeWhile_append_of_pos hdigits, List.dropWhile_append_of_pos hdigits, hrest.1, hrest.2,
    List.append_nil, if_neg Nat.toDigits_ne_nil, Nat.ofDigitChars_toDigits (by decide) (by decide)]

theorem notMem_spaces_of_isDigit (h : c.isDigit = true) : c ∉ spaces := by
  intro hmem
  simp only [spaces, List.mem_cons, List.not_mem_nil, or_false] at hmem
  rcases hmem with rfl | rfl | rfl | rfl <;> cases h

theorem readValue_of_isDigit (h : c.isDigit = true) (fuel : Nat) (cs : List Char) :
    readValue (fuel + 1) (c :: cs) = readNat (c :: cs) := by
  rw [readValue, skip_cons_of_notMem (notMem_spaces_of_isDigit h)]
  split
  case h_6 => rfl
  all_goals
    rename_i heq
    cases (List.cons.inj heq).1
    cases h

theorem exists_toDigits_eq_cons (n : Nat) : ∃ c cs, Nat.toDigits 10 n = c :: cs ∧ c.isDigit = true := by
  obtain ⟨c, cs, hcs⟩ := List.exists_cons_of_ne_nil (Nat.toDigits_ne_nil (n := n) (b := 10))
  have hmem : c ∈ Nat.toDigits 10 n := hcs ▸ List.mem_cons_self
  exact ⟨c, cs, hcs, Nat.isDigit_of_mem_toDigits (by decide) (by decide) hmem⟩

theorem exists_write_eq_cons (layout : Layout) (j : Json) :
    ∃ c cs, (write layout j).toList = c :: cs ∧ c ∉ spaces ∧ c ≠ ']' := by
  match j with
  | .bool true => exact ⟨'t', ['r', 'u', 'e'], by simp [write], by decide, by decide⟩
  | .bool false => exact ⟨'f', ['a', 'l', 's', 'e'], by simp [write], by decide, by decide⟩
  | .nat n =>
    obtain ⟨c, cs, hcs, hdigit⟩ := exists_toDigits_eq_cons n
    refine ⟨c, cs, by simp [write, hcs], notMem_spaces_of_isDigit hdigit, ?_⟩
    rintro rfl
    cases hdigit
  | .str text => exact ⟨'"', _, by rw [write, quote_toList], by decide, by decide⟩
  | .arr [] => exact ⟨'[', [']'], by simp [write], by decide, by decide⟩
  | .arr (j :: js) => exact ⟨'[', _, by simp [write]; rfl, by decide, by decide⟩
  | .obj [] => exact ⟨'\x7b', ['\x7d'], by simp [write], by decide, by decide⟩
  | .obj (member :: members) => exact ⟨'\x7b', _, by simp [write]; rfl, by decide, by decide⟩

theorem readValue_lineEnd (layout : Layout) (fuel : Nat) (cs : List Char) :
    readValue fuel (layout.lineEnd.toList ++ cs) = readValue fuel cs := by
  cases fuel with
  | zero => rfl
  | succ fuel => rw [readValue, readValue, skip_lineEnd]

theorem readValue_space (fuel : Nat) (cs : List Char) : readValue fuel (' ' :: cs) = readValue fuel cs := by
  cases fuel with
  | zero => rfl
  | succ fuel => rw [readValue, readValue, skip_space]

theorem readMember_lineEnd (layout : Layout) (fuel : Nat) (cs : List Char) :
    readMember fuel (layout.lineEnd.toList ++ cs) = readMember fuel cs := by
  cases fuel with
  | zero => rfl
  | succ fuel => rw [readMember, readMember, skip_lineEnd]

structure ReadsBack (fuel : Nat) : Prop where
  value (layout : Layout) (j : Json) {rest : List Char} : (write layout j).length < fuel → Stops rest →
    readValue fuel ((write layout j).toList ++ rest) = some (j, rest)
  items (layout : Layout) (js : List Json) (rest : List Char) : (writeItems layout js).length < fuel →
    readItems fuel ((writeItems layout js).toList ++ rest) = some (js, rest)
  member (layout : Layout) (member : String × Json) {rest : List Char} : (writeMember layout member).length < fuel →
    Stops rest → readMember fuel ((writeMember layout member).toList ++ rest) = some (member, rest)
  members (layout : Layout) (members : List (String × Json)) (rest : List Char) :
    (writeMembers layout members).length < fuel →
      readMembers fuel ((writeMembers layout members).toList ++ rest) = some (members, rest)

variable {fuel : Nat} {layout : Layout}

theorem readValue_bracket (hskip : ∀ rest, skip cs ≠ ']' :: rest) (fuel : Nat) :
    readValue (fuel + 1) ('[' :: cs) = (readValue fuel cs).bind fun (j, rest) =>
      (readItems fuel rest).bind fun (js, rest) => some (.arr (j :: js), rest) := by
  rw [readValue, skip_cons_of_notMem (by decide)]
  simp only
  rfl

theorem readValue_brace (hskip : ∀ rest, skip cs ≠ '\x7d' :: rest) (fuel : Nat) :
    readValue (fuel + 1) ('\x7b' :: cs) = (readMember fuel cs).bind fun (member, rest) =>
      (readMembers fuel rest).bind fun (members, rest) => some (.obj (member :: members), rest) := by
  rw [readValue, skip_cons_of_notMem (by decide)]
  simp only
  rfl

theorem ReadsBack.arr_succ (h : ReadsBack fuel) {j : Json} {js : List Json}
    (hfuel : (write layout (.arr (j :: js))).length < fuel + 1) :
    readValue (fuel + 1) ((write layout (.arr (j :: js))).toList ++ rest) = some (.arr (j :: js), rest) := by
  obtain ⟨c, cs, hcs, hspace, hclose⟩ := exists_write_eq_cons layout.deeper j
  have hopen : "[".length = 1 := rfl
  have hhead : "[".toList = ['['] := rfl
  simp only [write, String.length_append, hopen] at hfuel
  have hskip : ∀ us us', skip (layout.deeper.lineEnd.toList ++ ((write layout.deeper j).toList ++ us)) ≠ ']' :: us' := by
    intro us us'
    simp [skip_lineEnd, hcs, skip_cons_of_notMem hspace, hclose]
  have hvalue := h.value layout.deeper j (by omega) (stops_writeItems layout js rest)
  have hitems := h.items layout js rest (by omega)
  simp only [write, String.toList_append, List.append_assoc, hhead, List.cons_append, List.nil_append,
    readValue_bracket (hskip _), readValue_lineEnd, hvalue, hitems, Option.bind_some]

theorem ReadsBack.obj_succ (h : ReadsBack fuel) {member : String × Json} {members : List (String × Json)}
    (hfuel : (write layout (.obj (member :: members))).length < fuel + 1) :
    readValue (fuel + 1) ((write layout (.obj (member :: members))).toList ++ rest) =
      some (.obj (member :: members), rest) := by
  obtain ⟨key, j⟩ := member
  have hopen : "\x7b".length = 1 := rfl
  have hhead : "\x7b".toList = ['\x7b'] := rfl
  simp only [write, String.length_append, hopen] at hfuel
  have hskip : ∀ us us', skip (layout.deeper.lineEnd.toList ++ ((writeMember layout (key, j)).toList ++ us)) ≠
      '\x7d' :: us' := by
    intro us us'
    rw [skip_lineEnd]
    simp [writeMember, quote_toList, skip, spaces]
  have hmember := h.member layout (key, j) (by omega) (stops_writeMembers layout members rest)
  have hmembers := h.members layout members rest (by omega)
  simp only [write, String.toList_append, List.append_assoc, hhead, List.cons_append, List.nil_append,
    readValue_brace (hskip _), readMember_lineEnd, hmember, hmembers, Option.bind_some]

theorem readValue_nat (layout : Layout) (n fuel : Nat) (hrest : Stops rest) :
    readValue (fuel + 1) ((write layout (.nat n)).toList ++ rest) = some (.nat n, rest) := by
  obtain ⟨c, cs, hcs, hdigit⟩ := exists_toDigits_eq_cons n
  have hread := readNat_toDigits n hrest
  rw [hcs] at hread
  have hvalue := (readValue_of_isDigit hdigit fuel (cs ++ rest)).trans hread
  simpa [write, hcs] using hvalue

theorem readValue_str (layout : Layout) (text : String) (fuel : Nat) (rest : List Char) :
    readValue (fuel + 1) ((write layout (.str text)).toList ++ rest) = some (.str text, rest) := by
  have hread := readText_flatMap text.toList rest
  rw [write, quote_toList, readValue]
  simp [skip_cons_of_notMem, spaces, hread]

theorem ReadsBack.value_succ (h : ReadsBack fuel) {j : Json} (hfuel : (write layout j).length < fuel + 1)
    (hrest : Stops rest) : readValue (fuel + 1) ((write layout j).toList ++ rest) = some (j, rest) := by
  cases j with
  | bool b => cases b <;> (rw [write]; rfl)
  | nat n => exact readValue_nat layout n fuel hrest
  | str text => exact readValue_str layout text fuel rest
  | arr items =>
    cases items with
    | nil =>
      rw [write]
      rfl
    | cons j js => exact h.arr_succ hfuel
  | obj members =>
    cases members with
    | nil =>
      rw [write]
      rfl
    | cons member members => exact h.obj_succ hfuel

theorem ReadsBack.items_succ (h : ReadsBack fuel) {js : List Json} (hfuel : (writeItems layout js).length < fuel + 1) :
    readItems (fuel + 1) ((writeItems layout js).toList ++ rest) = some (js, rest) := by
  cases js with
  | nil =>
    simp only [writeItems, String.toList_append, List.append_assoc, readItems, skip_lineEnd]
    rfl
  | cons j js =>
    have hcomma : ",".length = 1 := rfl
    simp only [writeItems, String.length_append, hcomma] at hfuel
    have hvalue := h.value layout.deeper j (by omega) (stops_writeItems layout js rest)
    have hitems := h.items layout js rest (by omega)
    have hread : ∀ cs, readItems (fuel + 1) (',' :: cs) = (readValue fuel cs).bind fun (j, rest) =>
        (readItems fuel rest).bind fun (js, rest) => some (j :: js, rest) := fun _ => rfl
    have hhead : ",".toList = [','] := rfl
    simp only [writeItems, String.toList_append, List.append_assoc, hhead, List.cons_append, List.nil_append, hread,
      readValue_lineEnd, hvalue, hitems, Option.bind_some]

theorem ReadsBack.members_succ (h : ReadsBack fuel) {members : List (String × Json)}
    (hfuel : (writeMembers layout members).length < fuel + 1) :
    readMembers (fuel + 1) ((writeMembers layout members).toList ++ rest) = some (members, rest) := by
  cases members with
  | nil =>
    simp only [writeMembers, String.toList_append, List.append_assoc, readMembers, skip_lineEnd]
    rfl
  | cons member members =>
    have hcomma : ",".length = 1 := rfl
    simp only [writeMembers, String.length_append, hcomma] at hfuel
    have hmember := h.member layout member (by omega) (stops_writeMembers layout members rest)
    have hmembers := h.members layout members rest (by omega)
    have hread : ∀ cs, readMembers (fuel + 1) (',' :: cs) = (readMember fuel cs).bind fun (member, rest) =>
        (readMembers fuel rest).bind fun (members, rest) => some (member :: members, rest) := fun _ => rfl
    have hhead : ",".toList = [','] := rfl
    simp only [writeMembers, String.toList_append, List.append_assoc, hhead, List.cons_append, List.nil_append, hread,
      readMember_lineEnd, hmember, hmembers, Option.bind_some]

theorem ReadsBack.member_succ (h : ReadsBack fuel) {member : String × Json}
    (hfuel : (writeMember layout member).length < fuel + 1) (hrest : Stops rest) :
    readMember (fuel + 1) ((writeMember layout member).toList ++ rest) = some (member, rest) := by
  obtain ⟨key, j⟩ := member
  have hquote : "\"".length = 1 := rfl
  simp only [writeMember, quote, String.length_append, hquote] at hfuel
  have hvalue := h.value layout.deeper j (by omega) hrest
  have hkey := readText_flatMap key.toList (layout.colon.toList ++ ((write layout.deeper j).toList ++ rest))
  have hread : ∀ cs, readMember (fuel + 1) ('"' :: cs) = (readText cs).bind fun (key, rest) =>
      match skip rest with
      | ':' :: cs => (readValue fuel cs).bind fun (j, rest) => some ((String.ofList key, j), rest)
      | _ => none := fun _ => rfl
  simp only [writeMember, String.toList_append, List.append_assoc, quote_toList, List.cons_append, List.nil_append,
    hread, hkey, Option.bind_some, String.ofList_toList]
  have hskip : ∀ cs, skip (':' :: cs) = ':' :: cs := skip_cons_of_notMem (by decide)
  cases layout with
  | line =>
    have hcolon : (Layout.colon .line).toList = [':'] := rfl
    simp only [hcolon, List.cons_append, List.nil_append, hskip, hvalue, Option.bind_some]
  | indented depth =>
    have hcolon : (Layout.colon (.indented depth)).toList = [':', ' '] := by simp [Layout.colon]
    simp only [hcolon, List.cons_append, List.nil_append, hskip, readValue_space, hvalue, Option.bind_some]

theorem readsBack (fuel : Nat) : ReadsBack fuel := by
  induction fuel with
  | zero => constructor <;> intros <;> exact absurd ‹_› (Nat.not_lt_zero _)
  | succ fuel ih =>
    exact ⟨fun _ _ _ => ih.value_succ, fun _ _ _ => ih.items_succ, fun _ _ _ => ih.member_succ,
      fun _ _ _ => ih.members_succ⟩

theorem read?_write (layout : Layout) (j : Json) : read? (j.write layout) = some j := by
  have hstops : Stops [] := by simp [Stops]
  have hvalue := (readsBack ((j.write layout).length + 1)).value layout j (Nat.lt_succ_self _) hstops
  rw [List.append_nil] at hvalue
  rw [read?, hvalue]
  rfl

theorem read?_render (isCompact : Bool) (j : Json) : read? (j.render isCompact) = some j := by
  cases isCompact <;> exact read?_write _ j

end

end CallGrammar.Json
