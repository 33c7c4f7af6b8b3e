import CallGrammar.Proofs.Numbering
import CallGrammar.Proofs.Outline
import CallGrammar.Proofs.Simulation
import Mathlib.Data.List.SplitBy

namespace CallGrammar

theorem eq_of_map_eq {α β : Type} {f : α → β} {xs ys : List α} (hf : ∀ x ∈ xs, ∀ y ∈ ys, f x = f y → x = y)
    (h : xs.map f = ys.map f) : xs = ys := by
  have hlength : xs.length = ys.length := by simpa using congrArg List.length h
  refine List.ext_getElem hlength fun i hi hi' => hf _ (List.getElem_mem hi) _ (List.getElem_mem hi') ?_
  have hget := congrArg (·[i]?) h
  simpa [hi, hi'] using hget

theorem eq_of_mapIdx_eq {α β : Type} {f : Nat → α → β} {xs ys : List α}
    (hf : ∀ i, ∀ x ∈ xs, ∀ y ∈ ys, f i x = f i y → x = y) (h : xs.mapIdx f = ys.mapIdx f) : xs = ys := by
  have hlength : xs.length = ys.length := by simpa using congrArg List.length h
  refine List.ext_getElem hlength fun i hi hi' => hf i _ (List.getElem_mem hi) _ (List.getElem_mem hi') ?_
  have hget := congrArg (·[i]?) h
  simpa [hi, hi'] using hget

theorem splitBy_flatten_sections {α : Type} {marked : α → Bool} {sections : List (List α)}
    (h : ∀ xs ∈ sections, ∃ x rest, xs = x :: rest ∧ marked x = false ∧ ∀ y ∈ rest, marked y = true) :
    sections.flatten.splitBy (fun _ y => marked y) = sections := by
  apply List.splitBy_flatten
  · intro hnil
    obtain ⟨x, rest, hcons, _⟩ := h [] hnil
    cases hcons
  · intro xs hxs
    obtain ⟨x, rest, rfl, _, hrest⟩ := h xs hxs
    have hpairs : rest.Pairwise fun _ y => marked y = true :=
      List.pairwise_of_forall_mem_list fun _ _ y hy => hrest y hy
    exact (List.pairwise_cons.mpr ⟨hrest, hpairs⟩).isChain
  · refine (List.pairwise_of_forall_mem_list fun xs hxs ys hys => ?_).isChain
    obtain ⟨x, rest, rfl, _⟩ := h xs hxs
    obtain ⟨y, rest', rfl, hy, _⟩ := h ys hys
    exact ⟨by simp, by simp, hy⟩

structure Listing (κ : Type) where
  isFinal : Bool
  ways : List (κ × StateId)
  deriving DecidableEq

structure Legible {κ : Type} (label : κ → String) (listed : κ → Prop) : Prop where
  lacks_blank {k : κ} : listed k → Lacks ' ' (label k)
  lacks_break {k : κ} : listed k → Lacks '\n' (label k)
  eq_of_eq {k l : κ} : listed k → listed l → label k = label l → k = l

namespace Listing

variable {κ : Type} (stem : String) (label : κ → String)

def row (w : κ × StateId) : String := "  " ++ label w.1 ++ " -> " ++ (stem ++ toString w.2)

def heading (i : StateId) (s : Listing κ) : String := stem ++ toString i ++ Palette.plain.acceptMark s.isFinal

def lines (i : StateId) (s : Listing κ) : List String := s.heading stem i :: s.ways.map (row stem label)

def text (ss : List (Listing κ)) : String := String.join ((ss.mapIdx (lines stem label)).flatten.map (· ++ "\n"))

variable {stem label} {listed : κ → Prop} {s t : Listing κ} {ss ts : List (Listing κ)} {w v : κ × StateId} {i : StateId}

def isIndented (line : String) : Bool := line.toList.head? = some ' '

theorem isIndented_row (w : κ × StateId) : isIndented (row stem label w) = true := by simp [isIndented, row]

theorem not_isIndented_heading (hstem : IsWord stem) (i : StateId) (s : Listing κ) :
    isIndented (s.heading stem i) = false := by
  obtain ⟨c, cs, hcs⟩ := List.exists_cons_of_ne_nil hstem.1
  have hblank : Lacks ' ' stem := hstem.lacks (by decide)
  rw [Lacks, hcs, List.mem_cons, not_or] at hblank
  simpa [isIndented, heading, hcs] using Ne.symm hblank.1

theorem splitBy_lines (hstem : IsWord stem) (ss : List (Listing κ)) :
    (ss.mapIdx (lines stem label)).flatten.splitBy (fun _ line => isIndented line) = ss.mapIdx (lines stem label) := by
  apply splitBy_flatten_sections
  intro ls hls
  obtain ⟨i, hi, rfl⟩ := List.mem_mapIdx.mp hls
  exact ⟨_, _, rfl, not_isIndented_heading hstem i _, List.forall_mem_map.mpr fun w _ => isIndented_row w⟩

theorem lacks_name (hstem : IsWord stem) (i : StateId) : Lacks '\n' (stem ++ toString i) :=
  (hstem.lacks (by decide)).append (.toString_nat (by decide) i)

theorem lacks_lines (hstem : IsWord stem) (hlabel : Legible label listed) (hs : ∀ w ∈ s.ways, listed w.1) (i : StateId) :
    ∀ line ∈ s.lines stem label i, Lacks '\n' line := by
  have hmark : Lacks '\n' (Palette.plain.acceptMark s.isFinal) := by cases s.isFinal <;> decide
  have hrow : ∀ w ∈ s.ways, Lacks '\n' (row stem label w) := fun w hw =>
    ((Lacks.append (by decide) (hlabel.lacks_break (hs w hw))).append (by decide)).append (lacks_name hstem w.2)
  rw [lines, List.forall_mem_cons]
  exact ⟨(lacks_name hstem i).append hmark, List.forall_mem_map.mpr hrow⟩

theorem eq_of_row_eq (hlabel : Legible label listed) (hw : listed w.1) (hv : listed v.1)
    (h : row stem label w = row stem label v) : w = v := by
  have hlist : ∀ u : κ × StateId, (row stem label u).toList =
      ' ' :: ' ' :: ((label u.1).toList ++ ' ' :: ("-> " ++ (stem ++ toString u.2)).toList) := by simp [row]
  have hrows := congrArg String.toList h
  rw [hlist, hlist, List.cons_inj_right, List.cons_inj_right] at hrows
  obtain ⟨hfirst, hrest⟩ := append_cons_cancel (hlabel.lacks_blank hw) (hlabel.lacks_blank hv) hrows
  have htarget := (String.append_right_inj _).mp ((String.append_right_inj _).mp (String.toList_inj.mp hrest))
  exact Prod.ext (hlabel.eq_of_eq hw hv (String.toList_inj.mp hfirst)) (eq_of_toString_eq htarget)

theorem eq_of_lines_eq (hlabel : Legible label listed) (hs : ∀ w ∈ s.ways, listed w.1) (ht : ∀ w ∈ t.ways, listed w.1)
    (h : s.lines stem label i = t.lines stem label i) : s = t := by
  obtain ⟨hheading, hrows⟩ := List.cons.inj h
  have hways : s.ways = t.ways := eq_of_map_eq (fun w hw v hv => eq_of_row_eq hlabel (hs w hw) (ht v hv)) hrows
  have hmark := (String.append_right_inj _).mp hheading
  have hfinal : s.isFinal = t.isFinal := by
    revert hmark
    cases s.isFinal <;> cases t.isFinal <;> decide
  cases s
  cases t
  simp_all

theorem lacks_table (hstem : IsWord stem) (hlabel : Legible label listed) (hss : ∀ s ∈ ss, ∀ w ∈ s.ways, listed w.1) :
    ∀ line ∈ (ss.mapIdx (lines stem label)).flatten, Lacks '\n' line := by
  intro line hline
  obtain ⟨ls, hls, hmem⟩ := List.mem_flatten.mp hline
  obtain ⟨i, hi, rfl⟩ := List.mem_mapIdx.mp hls
  exact lacks_lines hstem hlabel (hss _ (List.getElem_mem hi)) i line hmem

theorem eq_of_text_eq (hstem : IsWord stem) (hlabel : Legible label listed)
    (hss : ∀ s ∈ ss, ∀ w ∈ s.ways, listed w.1) (hts : ∀ t ∈ ts, ∀ w ∈ t.ways, listed w.1)
    (h : text stem label ss = text stem label ts) : ss = ts := by
  have hlines := eq_of_join_lines_eq (lacks_table hstem hlabel hss) (lacks_table hstem hlabel hts) h
  have hsections : ss.mapIdx (lines stem label) = ts.mapIdx (lines stem label) := by
    rw [← splitBy_lines hstem ss, hlines, splitBy_lines hstem ts]
  refine eq_of_mapIdx_eq ?_ hsections
  intro i s hs t ht hst
  exact eq_of_lines_eq hlabel (hss s hs) (hts t ht) hst

end Listing

namespace TermTable

variable {terms : TermTable} {id : TermId}

theorem exists_label_eq (h : id < terms.size) :
    ∃ t ∈ terms.toList, terms.get? id = some t ∧ terms.label id = t.text := by
  have hget : terms.get? id = some terms.terms[id] := Array.getElem?_eq_getElem h
  exact ⟨_, Array.getElem_mem_toList h, hget, by rw [label, hget]⟩

theorem legible_label (hterms : ∀ t ∈ terms.toList, t.Writable) : Legible terms.label (· < terms.size) where
  lacks_blank h := by
    obtain ⟨t, ht, _, hlabel⟩ := exists_label_eq h
    exact hlabel ▸ (hterms t ht).lacks_text (by decide) (by decide)
  lacks_break h := by
    obtain ⟨t, ht, _, hlabel⟩ := exists_label_eq h
    exact hlabel ▸ (hterms t ht).lacks_text (by decide) (by decide)
  eq_of_eq h h' heq := by
    obtain ⟨t, ht, hget, hlabel⟩ := exists_label_eq h
    obtain ⟨u, hu, hget', hlabel'⟩ := exists_label_eq h'
    rw [hlabel, hlabel'] at heq
    obtain rfl := Term.eq_of_text_eq (hterms t ht) (hterms u hu) heq
    exact eq_of_get?_eq hget hget'

end TermTable

theorem Listing.text_map {σ κ : Type} {stem : String} {label : κ → String} {listing : σ → Listing κ}
    {dumped : StateId → σ → List String} (h : ∀ i s, dumped i s = (listing s).lines stem label i) (states : List σ) :
    String.join ((states.mapIdx dumped).flatten.map (· ++ "\n")) = text stem label (states.map listing) := by
  have hlines : states.mapIdx dumped = (states.map listing).mapIdx (lines stem label) := by
    apply List.ext_getElem
    · simp
    · intro i hi hi'
      simp [h]
  rw [text, hlines]

@[simp] theorem Palette.paintState_plain (label : String) : Palette.plain.paintState label = label := paint_plain label

@[simp] theorem Palette.paint_dim_plain (text : String) : Palette.plain.paint Palette.plain.dim text = text :=
  paint_plain text

def DfaState.listing (s : DfaState) : Listing TermId := ⟨s.isFinal, s.edges⟩

theorem DfaState.eq_of_listing_eq {s t : DfaState} (h : s.listing = t.listing) : s = t := by
  cases s
  cases t
  simp_all [listing]

namespace Dfa

variable {d e : Dfa} {terms : TermTable}

theorem dumpState_eq_lines (terms : TermTable) (i : StateId) (s : DfaState) :
    dumpState terms .plain i s = s.listing.lines "S" terms.label i := by
  simp [dumpState, stateLabel, DfaState.listing, Listing.lines, Listing.heading, Listing.row, String.append_assoc]

theorem dump_eq_text (d : Dfa) (terms : TermTable) :
    d.dump terms .plain = Listing.text "S" terms.label (d.states.toList.map (·.listing)) :=
  Listing.text_map (dumpState_eq_lines terms) d.states.toList

theorem dump_eq_iff (hterms : ∀ t ∈ terms.toList, t.Writable)
    (hd : ∀ s ∈ d.states.toList, ∀ edge ∈ s.edges, edge.1 < terms.size)
    (he : ∀ s ∈ e.states.toList, ∀ edge ∈ s.edges, edge.1 < terms.size) :
    d.dump terms .plain = e.dump terms .plain ↔ d = e := by
  refine ⟨fun h => ?_, fun h => h ▸ rfl⟩
  rw [dump_eq_text, dump_eq_text] at h
  have hlistings := Listing.eq_of_text_eq (by decide) (terms.legible_label hterms) (List.forall_mem_map.mpr hd)
    (List.forall_mem_map.mpr he) h
  have hstates := (List.map_inj_right fun _ _ => DfaState.eq_of_listing_eq).mp hlistings
  cases d
  cases e
  simpa using hstates

def articles : TermTable := ⟨#[.plain "of", ⟨"simpleArticle", "article"⟩], by decide⟩

def inOrder : Dfa := ⟨#[.ofEdges false [(0, 1), (1, 0)], .fresh true]⟩

def turned : Dfa := ⟨#[.ofEdges false [(1, 0), (0, 1)], .fresh true]⟩

theorem dump_inOrder_ne : (∀ t ∈ articles.toList, t.Writable) ∧
    (∀ s ∈ inOrder.states.toList, ∀ edge ∈ s.edges, edge.1 < articles.size) ∧
    (∀ s ∈ turned.states.toList, ∀ edge ∈ s.edges, edge.1 < articles.size) ∧
    inOrder.dump articles .plain ≠ turned.dump articles .plain := by
  have hterms : ∀ t ∈ articles.toList, t.Writable := by decide
  have hd : ∀ s ∈ inOrder.states.toList, ∀ edge ∈ s.edges, edge.1 < articles.size := by decide
  have he : ∀ s ∈ turned.states.toList, ∀ edge ∈ s.edges, edge.1 < articles.size := by decide
  exact ⟨hterms, hd, he, mt (dump_eq_iff hterms hd he).mp (by decide)⟩

end Dfa

def Term.epsilon : Term := .plain "ε"

theorem Term.text_epsilon : epsilon.text = "ε" := text_plain "ε"

namespace NfaState

variable {terms : TermTable} {s t : NfaState}

def ways (s : NfaState) : List (Option TermId × StateId) :=
  s.edges.map (fun edge => (some edge.1, edge.2)) ++ s.epsilons.map (none, ·)

def told (terms : TermTable) : Option TermId → Option TermId
  | some id => if terms.get? id = some .epsilon then none else some id
  | none => none

def listing (terms : TermTable) (s : NfaState) : Listing (Option TermId) :=
  ⟨s.isFinal, s.ways.map fun w => (told terms w.1, w.2)⟩

theorem listing_of_unambiguous (hs : ∀ edge ∈ s.edges, terms.get? edge.1 ≠ some .epsilon) :
    s.listing terms = ⟨s.isFinal, s.ways⟩ := by
  have hways : s.ways.map (fun w => (told terms w.1, w.2)) = s.ways := by
    simp only [ways, List.map_append, List.map_map]
    congr 1
    apply List.map_congr_left
    intro edge hedge
    simp [told, hs edge hedge]
  rw [listing, hways]

theorem eq_of_ways_eq (hfinal : s.isFinal = t.isFinal) (h : s.ways = t.ways) : s = t := by
  have hedges : ∀ s : NfaState, s.ways.filterMap (fun w => w.1.map (·, w.2)) = s.edges := by
    intro s
    simp [ways, List.filterMap_map]
  have hepsilons : ∀ s : NfaState, s.ways.filterMap (fun w => if w.1 = none then some w.2 else none) = s.epsilons := by
    intro s
    simp [ways, List.filterMap_map]
  have hedges_eq : s.edges = t.edges := by rw [← hedges s, ← hedges t, h]
  have hepsilons_eq : s.epsilons = t.epsilons := by rw [← hepsilons s, ← hepsilons t, h]
  cases s
  cases t
  simp_all

end NfaState

namespace Nfa

variable {n m : Nfa} {terms : TermTable}

def rowLabel (terms : TermTable) (label : Option TermId) : String := label.elim "ε" terms.label

theorem rowLabel_told (terms : TermTable) (label : Option TermId) :
    rowLabel terms (NfaState.told terms label) = rowLabel terms label := by
  cases label with
  | none => rfl
  | some id =>
    rw [NfaState.told]
    split
    · rename_i hget
      simp [rowLabel, TermTable.label, hget, Term.text_epsilon]
    · rfl

theorem row_told (terms : TermTable) (label : Option TermId) (target : StateId) :
    Listing.row "N" (rowLabel terms) (NfaState.told terms label, target) =
      "  " ++ rowLabel terms label ++ " -> " ++ stateLabel target := by
  rw [Listing.row, rowLabel_told, stateLabel]

theorem dumpState_eq_lines (terms : TermTable) (i : StateId) (s : NfaState) :
    dumpState terms .plain i s = (s.listing terms).lines "N" (rowLabel terms) i := by
  have hrows : (s.listing terms).ways.map (Listing.row "N" (rowLabel terms)) =
      s.edges.map (fun edge => "  " ++ terms.label edge.1 ++ " -> " ++ stateLabel edge.2) ++
        s.epsilons.map (fun target => "  ε -> " ++ stateLabel target) := by
    simp [NfaState.listing, NfaState.ways, Function.comp_def, row_told, rowLabel]
  rw [Listing.lines, hrows]
  simp [dumpState, Listing.heading, NfaState.listing, stateLabel, String.append_assoc]

def Listed (terms : TermTable) (label : Option TermId) : Prop :=
  ∀ id ∈ label, id < terms.size ∧ terms.get? id ≠ some .epsilon

theorem label_ne_epsilon (hterms : ∀ t ∈ terms.toList, t.Writable) {id : TermId} (h : Listed terms (some id)) :
    terms.label id ≠ "ε" := by
  obtain ⟨hid, hne⟩ := h id rfl
  obtain ⟨t, ht, hget, hlabel⟩ := terms.exists_label_eq hid
  rw [hlabel, ← Term.text_epsilon]
  intro htext
  exact hne (hget.trans (congrArg some (Term.eq_of_text_eq (hterms t ht) (by decide) htext)))

theorem legible_rowLabel (hterms : ∀ t ∈ terms.toList, t.Writable) : Legible (rowLabel terms) (Listed terms) where
  lacks_blank {label} h := by
    cases label with
    | none => exact (by decide : Lacks ' ' "ε")
    | some id => exact (terms.legible_label hterms).lacks_blank (h id rfl).1
  lacks_break {label} h := by
    cases label with
    | none => exact (by decide : Lacks '\n' "ε")
    | some id => exact (terms.legible_label hterms).lacks_break (h id rfl).1
  eq_of_eq {k l} hk hl heq := by
    match k, l with
    | none, none => rfl
    | none, some id => exact absurd heq.symm (label_ne_epsilon hterms hl)
    | some id, none => exact absurd heq (label_ne_epsilon hterms hk)
    | some id, some id' => exact congrArg some ((terms.legible_label hterms).eq_of_eq (hk id rfl).1 (hl id' rfl).1 heq)

theorem listed_told {label : Option TermId} (h : ∀ id ∈ label, id < terms.size) : Listed terms (NfaState.told terms label) := by
  intro id hid
  cases label with
  | none => cases hid
  | some id' =>
    rw [NfaState.told] at hid
    split at hid
    · cases hid
    · obtain rfl : id' = id := Option.some.inj hid
      exact ⟨h id' rfl, by assumption⟩

theorem listed_listing {s : NfaState} (hs : ∀ edge ∈ s.edges, edge.1 < terms.size) :
    ∀ w ∈ (s.listing terms).ways, Listed terms w.1 := by
  have hways : ∀ w ∈ s.ways, ∀ id ∈ w.1, id < terms.size := by
    intro w hw id hid
    rcases List.mem_append.mp hw with hw | hw
    · obtain ⟨edge, hedge, rfl⟩ := List.mem_map.mp hw
      obtain rfl : edge.1 = id := Option.some.inj hid
      exact hs edge hedge
    · obtain ⟨target, _, rfl⟩ := List.mem_map.mp hw
      cases hid
  exact List.forall_mem_map.mpr fun w hw => listed_told (hways w hw)

def listings (terms : TermTable) (n : Nfa) : List (Listing (Option TermId)) := n.states.toList.map (NfaState.listing terms)

theorem dump_eq_text (n : Nfa) (terms : TermTable) :
    n.dump terms .plain = Listing.text "N" (rowLabel terms) (n.listings terms) :=
  Listing.text_map (dumpState_eq_lines terms) n.states.toList

theorem listings_eq_of_dump_eq (hterms : ∀ t ∈ terms.toList, t.Writable)
    (hn : ∀ s ∈ n.states.toList, ∀ edge ∈ s.edges, edge.1 < terms.size)
    (hm : ∀ s ∈ m.states.toList, ∀ edge ∈ s.edges, edge.1 < terms.size)
    (h : n.dump terms .plain = m.dump terms .plain) : n.listings terms = m.listings terms := by
  rw [dump_eq_text, dump_eq_text] at h
  exact Listing.eq_of_text_eq (by decide) (legible_rowLabel hterms)
    (List.forall_mem_map.mpr fun s hs => listed_listing (hn s hs))
    (List.forall_mem_map.mpr fun s hs => listed_listing (hm s hs)) h

theorem dump_eq_of_listings_eq (h : n.listings terms = m.listings terms) : n.dump terms .plain = m.dump terms .plain := by
  rw [dump_eq_text, dump_eq_text, h]

theorem eq_of_listings_eq (hn : ∀ s ∈ n.states.toList, ∀ edge ∈ s.edges, terms.get? edge.1 ≠ some .epsilon)
    (hm : ∀ s ∈ m.states.toList, ∀ edge ∈ s.edges, terms.get? edge.1 ≠ some .epsilon)
    (h : n.listings terms = m.listings terms) : n = m := by
  have hstates : n.states.toList = m.states.toList := by
    refine eq_of_map_eq (fun s hs t ht hst => ?_) h
    rw [NfaState.listing_of_unambiguous (hn s hs), NfaState.listing_of_unambiguous (hm t ht), Listing.mk.injEq] at hst
    exact NfaState.eq_of_ways_eq hst.1 hst.2
  cases n
  cases m
  simpa using hstates

theorem dump_eq_iff_listings_eq (hterms : ∀ t ∈ terms.toList, t.Writable)
    (hn : ∀ s ∈ n.states.toList, ∀ edge ∈ s.edges, edge.1 < terms.size)
    (hm : ∀ s ∈ m.states.toList, ∀ edge ∈ s.edges, edge.1 < terms.size) :
    (n.dump terms .plain = m.dump terms .plain ↔ n.listings terms = m.listings terms) ∧
    ((∀ s ∈ n.states.toList, ∀ edge ∈ s.edges, terms.get? edge.1 ≠ some .epsilon) →
      (∀ s ∈ m.states.toList, ∀ edge ∈ s.edges, terms.get? edge.1 ≠ some .epsilon) →
      n.dump terms .plain = m.dump terms .plain → n = m) := by
  have hlistings := listings_eq_of_dump_eq hterms hn hm
  exact ⟨⟨hlistings, dump_eq_of_listings_eq⟩, fun hn' hm' h => eq_of_listings_eq hn' hm' (hlistings h)⟩

def signs : TermTable := ⟨#[.plain "->", ⟨"ε", "x"⟩], by decide⟩

def signsInOrder : Nfa := ((initial.addEdge 0 0 1).addEdge 0 1 1).addEpsilon 0 1

def signsTurned : Nfa := ((initial.addEdge 0 1 1).addEdge 0 0 1).addEpsilon 0 1

theorem dump_signsInOrder_ne : (∀ t ∈ signs.toList, t.Writable) ∧
    (∀ s ∈ signsInOrder.states.toList, ∀ edge ∈ s.edges, edge.1 < signs.size ∧ signs.get? edge.1 ≠ some .epsilon) ∧
    (∀ s ∈ signsTurned.states.toList, ∀ edge ∈ s.edges, edge.1 < signs.size ∧ signs.get? edge.1 ≠ some .epsilon) ∧
    signsInOrder.dump signs .plain ≠ signsTurned.dump signs .plain := by
  have hterms : ∀ t ∈ signs.toList, t.Writable := by decide
  have hn : ∀ s ∈ signsInOrder.states.toList, ∀ edge ∈ s.edges, edge.1 < signs.size := by decide
  have hm : ∀ s ∈ signsTurned.states.toList, ∀ edge ∈ s.edges, edge.1 < signs.size := by decide
  have htells := (dump_eq_iff_listings_eq hterms hn hm).2 (by decide) (by decide)
  exact ⟨hterms, by decide, by decide, mt htells (by decide)⟩

def labels : TermTable := ⟨#[.plain "a", .epsilon], by decide⟩

def labelledWay : Nfa := ofExpr (.alt [.term 0, .term 1])

def freeWay : Nfa := ofExpr (.optional (.term 0))

theorem dump_labelledWay_eq : (∀ t ∈ labels.toList, t.Writable) ∧ labelledWay.Built ∧ freeWay.Built ∧
    (∀ s ∈ labelledWay.states.toList, ∀ edge ∈ s.edges, edge.1 < labels.size) ∧
    (∀ s ∈ freeWay.states.toList, ∀ edge ∈ s.edges, edge.1 < labels.size) ∧
    labelledWay.dump labels .plain = freeWay.dump labels .plain ∧ labelledWay ≠ freeWay := by
  have hlabelled : labelledWay = (initial.addEdge 0 0 1).addEdge 0 1 1 := by decide
  have hfree : freeWay = (initial.addEdge 0 0 1).addEpsilon 0 1 := by decide
  have hedge : (initial.addEdge 0 0 1).Built := .addEdge .initial (by decide) (by decide)
  have hbuilt : labelledWay.Built := hlabelled ▸ .addEdge hedge (by decide) (by decide)
  have hbuilt' : freeWay.Built := hfree ▸ .addEpsilon hedge (by decide) (by decide)
  exact ⟨by decide, hbuilt, hbuilt', by decide, by decide, by decide, by decide⟩

end Nfa

end CallGrammar
