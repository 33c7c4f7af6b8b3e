import CallGrammar.Expr.Outline
import CallGrammar.Proofs.Colours
import CallGrammar.Proofs.Spelling

namespace CallGrammar

theorem IsWord.lacks {c : Char} {word : String} (h : IsWord word) (hc : isWordChar c = false) : Lacks c word := by
  intro hmem
  have hword := h.2 c hmem
  simp [hc] at hword

theorem eq_of_join_lines_eq {ls ms : List String} (hl : ∀ l ∈ ls, Lacks '\n' l) (hm : ∀ m ∈ ms, Lacks '\n' m)
    (h : String.join (ls.map (· ++ "\n")) = String.join (ms.map (· ++ "\n"))) : ls = ms := by
  have hlist := congrArg String.toList h
  induction ls generalizing ms with
  | nil =>
    cases ms with
    | nil => rfl
    | cons m ms => simp at hlist
  | cons l ls ih =>
    cases ms with
    | nil => simp at hlist
    | cons m ms =>
      obtain ⟨hlfirst, hlrest⟩ := List.forall_mem_cons.mp hl
      obtain ⟨hmfirst, hmrest⟩ := List.forall_mem_cons.mp hm
      simp only [List.map_cons, String.join_cons, String.toList_append, List.append_assoc] at hlist
      obtain ⟨hfirst, hrest⟩ := append_cons_cancel hlfirst hmfirst hlist
      rw [String.toList_inj.mp hfirst, ih hlrest hmrest (String.toList_inj.mp hrest) hrest]

namespace Term

variable {t u : Term}

def afterName (t : Term) : String := if t.isAliased then t.callable ++ ":" else ""

theorem text_append_colon (t : Term) : (t.text ++ ":").toList = t.name.toList ++ ':' :: t.afterName.toList := by
  rw [text, afterName]
  split <;> simp

theorem eq_of_name_eq_of_afterName_eq (hname : t.name = u.name) (hafter : t.afterName = u.afterName) : t = u := by
  obtain ⟨name, callable⟩ := t
  obtain ⟨name', callable'⟩ := u
  obtain rfl : name = name' := hname
  have hlength := congrArg String.length hafter
  by_cases ht : name = callable <;> by_cases hu : name = callable' <;> simp_all [afterName, isAliased]

theorem eq_of_text_eq (ht : t.Writable) (hu : u.Writable) (h : t.text = u.text) : t = u := by
  have hcolon : isWordChar ':' = false := by decide
  have htext := text_append_colon t
  rw [h, text_append_colon] at htext
  obtain ⟨hname, hafter⟩ := append_cons_cancel (hu.name.lacks hcolon) (ht.name.lacks hcolon) htext
  exact (eq_of_name_eq_of_afterName_eq (String.toList_inj.mp hname) (String.toList_inj.mp hafter)).symm

theorem Writable.lacks_text (ht : t.Writable) {c : Char} (hc : isWordChar c = false) (hcolon : c ≠ ':') :
    Lacks c t.text := by
  have hsep : Lacks c ":" := by simpa [Lacks] using hcolon
  rw [text]
  split
  · exact ((ht.name.lacks hc).append hsep).append (ht.callable.lacks hc)
  · exact ht.name.lacks hc

end Term

namespace Expr

def label : Expr Term → String
  | .term t => "Term " ++ t.text
  | .seq _ => "Seq"
  | .alt _ => "Alt"
  | .star _ => "Star"
  | .plus _ => "Plus"
  | .optional _ => "Optional"

def children : Expr Term → List (Expr Term)
  | .term _ => []
  | .seq items => items
  | .alt branches => branches
  | .star inner => [inner]
  | .plus inner => [inner]
  | .optional inner => [inner]

variable {depth : Nat} {e f : Expr Term} {es fs : List (Expr Term)} {r s : List String}

theorem outlineLines_eq_cons (depth : Nat) (e : Expr Term) :
    outlineLines depth e = outlineLine depth e.label :: outlineLinesAll (depth + 1) e.children := by
  cases e <;> simp [outlineLines, outlineLinesAll, label, children]

theorem leavesAll_children_subset (e : Expr Term) : ∀ t ∈ leavesAll e.children, t ∈ e.leaves := by
  cases e <;> simp [children, leavesAll, leaves]

theorem sizeOf_children_lt (e : Expr Term) (es : List (Expr Term)) : sizeOf e.children < sizeOf (e :: es) := by
  have hes : 0 < sizeOf es := by cases es <;> simp
  cases e <;> simp [children] <;> omega

theorem eq_of_label_eq (he : ∀ t ∈ e.leaves, t.Writable) (hf : ∀ t ∈ f.leaves, t.Writable) (hlabel : e.label = f.label)
    (hchildren : e.children = f.children) : e = f := by
  cases e with
  | term t =>
    cases f with
    | term u =>
      have htext : t.text = u.text := (String.append_right_inj _).mp hlabel
      rw [Term.eq_of_text_eq (he t (by simp [leaves])) (hf u (by simp [leaves])) htext]
    | _ => simp [label, ← String.toList_inj] at hlabel
  | _ => cases f <;> simp_all [label, children, ← String.toList_inj]

def indent (line : String) : Nat := (line.toList.takeWhile (· = ' ')).length

theorem label_toList (e : Expr Term) : ∃ c cs, e.label.toList = c :: cs ∧ c ≠ ' ' := by
  cases e <;> simp [label]

theorem indent_outlineLine (depth : Nat) (e : Expr Term) : indent (outlineLine depth e.label) = 2 * depth := by
  obtain ⟨c, cs, hlabel, hc⟩ := e.label_toList
  rw [indent, outlineLine, String.toList_append, String.toList_ofList, hlabel,
    List.takeWhile_append_of_pos (by simp), List.takeWhile_cons_of_neg (by simpa using hc)]
  simp

def Ends (depth : Nat) (lines : List String) : Prop := ∀ line ∈ lines.head?, indent line < 2 * depth

theorem Ends.nil (depth : Nat) : Ends depth [] := by simp [Ends]

theorem Ends.deeper (h : Ends depth r) : Ends (depth + 1) r := fun line hline => (h line hline).trans (by omega)

theorem Ends.outlineLinesAll (h : Ends depth r) (es : List (Expr Term)) :
    Ends (depth + 1) (outlineLinesAll depth es ++ r) := by
  cases es with
  | nil => exact h.deeper
  | cons e es =>
    rw [Expr.outlineLinesAll, outlineLines_eq_cons]
    intro line hline
    simp only [List.cons_append, List.head?_cons, Option.mem_def, Option.some_inj] at hline
    rw [← hline, indent_outlineLine]
    omega

theorem not_ends_cons (depth : Nat) (e : Expr Term) (es : List (Expr Term)) (r : List String) :
    ¬ Ends depth (outlineLinesAll depth (e :: es) ++ r) := by
  intro h
  have hhead := h (outlineLine depth e.label) (by rw [outlineLinesAll, outlineLines_eq_cons]; rfl)
  rw [indent_outlineLine] at hhead
  exact Nat.lt_irrefl _ hhead

theorem eq_of_outlineLinesAll_append_eq {depth : Nat} {es fs : List (Expr Term)} {r s : List String}
    (hes : ∀ t ∈ leavesAll es, t.Writable) (hfs : ∀ t ∈ leavesAll fs, t.Writable) (hr : Ends depth r) (hs : Ends depth s)
    (h : outlineLinesAll depth es ++ r = outlineLinesAll depth fs ++ s) : es = fs ∧ r = s := by
  match es, fs with
  | [], [] => exact ⟨rfl, h⟩
  | [], f :: fs => exact absurd (h ▸ hr) (not_ends_cons depth f fs s)
  | e :: es, [] => exact absurd (h ▸ hs) (not_ends_cons depth e es r)
  | e :: es, f :: fs =>
    simp only [leavesAll, List.forall_mem_append] at hes hfs
    simp only [outlineLinesAll, outlineLines_eq_cons, List.cons_append, List.append_assoc, List.cons.injEq] at h
    obtain ⟨hline, hbelow⟩ := h
    obtain ⟨hchildren, hafter⟩ := eq_of_outlineLinesAll_append_eq
      (fun t ht => hes.1 t (leavesAll_children_subset e t ht)) (fun t ht => hfs.1 t (leavesAll_children_subset f t ht))
      (hr.outlineLinesAll es) (hs.outlineLinesAll fs) hbelow
    obtain ⟨rfl, rfl⟩ := eq_of_outlineLinesAll_append_eq hes.2 hfs.2 hr hs hafter
    obtain rfl := eq_of_label_eq hes.1 hfs.1 ((String.append_right_inj _).mp hline) hchildren
    exact ⟨rfl, rfl⟩
termination_by sizeOf es
decreasing_by
  · exact sizeOf_children_lt e es
  · simp

theorem lacks_outlineLine (he : ∀ t ∈ e.leaves, t.Writable) (depth : Nat) :
    Lacks '\n' (outlineLine depth e.label) := by
  refine Lacks.append (by simp [Lacks]) ?_
  cases e with
  | term t => exact Lacks.append (by decide) ((he t (by simp [leaves])).lacks_text (by decide) (by decide))
  | _ => simp [label, Lacks]

theorem lacks_of_mem_outlineLinesAll {depth : Nat} {es : List (Expr Term)} (hes : ∀ t ∈ leavesAll es, t.Writable) :
    ∀ line ∈ outlineLinesAll depth es, Lacks '\n' line := by
  match es with
  | [] => simp [outlineLinesAll]
  | e :: es =>
    simp only [leavesAll, List.forall_mem_append] at hes
    simp only [outlineLinesAll, outlineLines_eq_cons, List.cons_append, List.forall_mem_cons, List.forall_mem_append]
    exact ⟨lacks_outlineLine hes.1 depth,
      lacks_of_mem_outlineLinesAll fun t ht => hes.1 t (leavesAll_children_subset e t ht),
      lacks_of_mem_outlineLinesAll hes.2⟩
termination_by sizeOf es
decreasing_by
  · exact sizeOf_children_lt e es
  · simp

theorem outline_eq_join (e : Expr Term) : e.outline = String.join ((outlineLinesAll 0 [e]).map (· ++ "\n")) := by
  rw [outline, outlineLinesAll, outlineLinesAll, List.append_nil]

theorem eq_of_outline_eq (he : ∀ t ∈ e.leaves, t.Writable) (hf : ∀ t ∈ f.leaves, t.Writable)
    (h : e.outline = f.outline) : e = f := by
  have he' : ∀ t ∈ leavesAll [e], t.Writable := by simpa [leavesAll] using he
  have hf' : ∀ t ∈ leavesAll [f], t.Writable := by simpa [leavesAll] using hf
  rw [outline_eq_join, outline_eq_join] at h
  have hlines := eq_of_join_lines_eq (lacks_of_mem_outlineLinesAll he') (lacks_of_mem_outlineLinesAll hf') h
  obtain ⟨htrees, _⟩ := eq_of_outlineLinesAll_append_eq (r := []) (s := []) he' hf' (.nil 0) (.nil 0) (by rw [hlines])
  exact (List.cons.inj htrees).1

theorem outline_eq_iff {e f : Expr Occurrence} (he : ∀ o ∈ e.leaves, o.term.Writable)
    (hf : ∀ o ∈ f.leaves, o.term.Writable) :
    (e.map (·.term)).outline = (f.map (·.term)).outline ↔ e.map (·.term) = f.map (·.term) := by
  refine ⟨eq_of_outline_eq ?_ ?_, congrArg outline⟩
  · simpa [leaves_map] using he
  · simpa [leaves_map] using hf

def labelled : Expr Occurrence :=
  .alt [.seq [.term ⟨0, ⟨"Seq", "Term"⟩, ⟨0, 8⟩⟩, .star (.plus (.seq []))], .optional (.term ⟨1, ⟨"Alt", "Alt"⟩, ⟨9, 12⟩⟩)]

def relabelled : Expr Occurrence :=
  .alt [.seq [.term ⟨7, ⟨"Seq", "Term"⟩, ⟨3, 4⟩⟩, .star (.plus (.alt []))], .optional (.term ⟨1, ⟨"Alt", "Alt"⟩, ⟨0, 0⟩⟩)]

theorem outline_labelled_ne : (∀ o ∈ labelled.leaves, o.term.Writable) ∧ (∀ o ∈ relabelled.leaves, o.term.Writable) ∧
    (labelled.map (·.term)).outline ≠ (relabelled.map (·.term)).outline := by
  have h : ∀ o ∈ labelled.leaves, o.term.Writable := by decide
  have h' : ∀ o ∈ relabelled.leaves, o.term.Writable := by decide
  exact ⟨h, h', mt (outline_eq_iff h h').mp (by decide)⟩

end Expr

end CallGrammar
