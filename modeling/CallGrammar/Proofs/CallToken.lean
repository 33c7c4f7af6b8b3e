import CallGrammar.Command.CallToken
import CallGrammar.Proofs.Colours
import Mathlib.Data.List.TakeWhile

namespace CallGrammar.CallToken

variable {name token : String} {args : List String}

theorem commaParts_eq_splitOn (cs : List Char) : (commaParts cs).1 :: (commaParts cs).2 = cs.splitOn ',' := by
  induction cs with
  | nil => rfl
  | cons c cs ih =>
    rw [List.splitOn_cons_eq_if_modifyHead, ← ih, commaParts]
    by_cases hc : c = ',' <;> simp [hc]

theorem argTexts_eq_map (cs : List Char) : argTexts cs = (cs.splitOn ',').map String.ofList := by
  rw [← commaParts_eq_splitOn]
  rfl

theorem argTexts_ne_nil (cs : List Char) : argTexts cs ≠ [] := by
  rw [argTexts]
  exact List.cons_ne_nil _ _

theorem intercalate_argTexts (text : String) : ",".intercalate (argTexts text.toList) = text := by
  have hparts : (argTexts text.toList).map String.toList = text.toList.splitOn ',' := by
    rw [argTexts_eq_map, List.map_map]
    simp [Function.comp_def]
  apply String.toList_inj.mp
  rw [String.toList_intercalate, hparts]
  exact List.intercalate_splitOn ','

theorem argTexts_intercalate (hargs : ∀ a ∈ args, Lacks ',' a) (hne : args ≠ []) :
    argTexts (",".intercalate args).toList = args := by
  have hlacks : ∀ cs ∈ args.map String.toList, ',' ∉ cs := List.forall_mem_map.mpr hargs
  have hsplit := List.splitOn_intercalate ',' hlacks (by simpa using hne)
  have hcomma : ",".toList = [','] := rfl
  rw [argTexts_eq_map, String.toList_intercalate, hcomma, hsplit, List.map_map]
  simp [Function.comp_def]

theorem forall_ne_of_lacks (h : Lacks '=' name) : ∀ c ∈ name.toList, decide (c ≠ '=') = true := by
  intro c hc
  simpa using fun heq : c = '=' => h (heq ▸ hc)

theorem parse_of_lacks (h : Lacks '=' name) : parse name = ⟨name, []⟩ := by
  have htake : name.toList.takeWhile (· ≠ '=') = name.toList := List.takeWhile_eq_self_iff.mpr (forall_ne_of_lacks h)
  have hdrop : name.toList.dropWhile (· ≠ '=') = [] := List.dropWhile_eq_nil_iff.mpr (forall_ne_of_lacks h)
  rw [parse, htake, hdrop, String.ofList_toList]

theorem parse_append (h : Lacks '=' name) (text : String) :
    parse (name ++ "=" ++ text) = ⟨name, if text = "" then [] else argTexts text.toList⟩ := by
  have hlist : (name ++ "=" ++ text).toList = name.toList ++ '=' :: text.toList := by simp
  have htake : (name.toList ++ '=' :: text.toList).takeWhile (· ≠ '=') = name.toList := by
    rw [List.takeWhile_append_of_pos (forall_ne_of_lacks h), List.takeWhile_cons_of_neg (by simp), List.append_nil]
  have hdrop : (name.toList ++ '=' :: text.toList).dropWhile (· ≠ '=') = '=' :: text.toList := by
    rw [List.dropWhile_append_of_pos (forall_ne_of_lacks h), List.dropWhile_cons_of_neg (by simp)]
  rw [parse, hlist, htake, hdrop, String.ofList_toList]
  by_cases htext : text = ""
  · simp [htext]
  · obtain ⟨c, cs, hcs⟩ := List.exists_cons_of_ne_nil (mt String.toList_eq_nil_iff.mp htext)
    rw [if_neg htext, hcs]

theorem parse_append_equals (h : Lacks '=' name) : parse (name ++ "=") = ⟨name, []⟩ := by
  have hparse := parse_append h ""
  rwa [String.append_empty, if_pos rfl] at hparse

theorem lacks_or_exists_append (token : String) :
    Lacks '=' token ∨ ∃ name text, Lacks '=' name ∧ token = name ++ "=" ++ text := by
  by_cases hmem : '=' ∈ token.toList
  · obtain ⟨before, after, htoken, hbefore⟩ := List.eq_append_cons_of_mem hmem
    refine .inr ⟨String.ofList before, String.ofList after, by simpa [Lacks] using hbefore, ?_⟩
    apply String.toList_inj.mp
    simp [htoken]
  · exact .inl hmem

theorem text_parse_of_trailing (h : Lacks '=' name) : (parse (name ++ "=")).text = name := by
  rw [parse_append_equals h]
  rfl

theorem text_parse (h : ∀ name, Lacks '=' name → token ≠ name ++ "=") : (parse token).text = token := by
  rcases lacks_or_exists_append token with hlacks | ⟨name, text, hname, rfl⟩
  · rw [parse_of_lacks hlacks]
    rfl
  · have htext : text ≠ "" := by
      rintro rfl
      exact h name hname String.append_empty
    rw [parse_append hname, if_neg htext, CallToken.text, if_neg (by simpa using argTexts_ne_nil text.toList),
      intercalate_argTexts]

theorem text_parse_cases (token : String) :
    (parse token).text = token ∨ ∃ name, Lacks '=' name ∧ token = name ++ "=" ∧ (parse token).text = name := by
  by_cases h : ∃ name, Lacks '=' name ∧ token = name ++ "="
  · obtain ⟨name, hname, rfl⟩ := h
    exact .inr ⟨name, hname, rfl, text_parse_of_trailing hname⟩
  · exact .inl (text_parse fun name hname htoken => h ⟨name, hname, htoken⟩)

theorem intercalate_ne_empty (hne : args ≠ []) (hblank : args ≠ [""]) : ",".intercalate args ≠ "" := by
  match args with
  | [] => exact absurd rfl hne
  | [a] =>
    rw [String.intercalate_singleton]
    rintro rfl
    exact hblank rfl
  | a :: b :: args =>
    rw [String.intercalate_cons_cons]
    simp

theorem parse_written (hname : Lacks '=' name) (hargs : ∀ a ∈ args, Lacks ',' a) (hne : args ≠ []) (hblank : args ≠ [""]) :
    parse (name ++ "=" ++ ",".intercalate args) = ⟨name, args⟩ := by
  rw [parse_append hname, if_neg (intercalate_ne_empty hne hblank), argTexts_intercalate hargs hne]

theorem parse_eq_iff {t u : String} (hne : t ≠ u) : parse t = parse u ↔
    ∃ name, Lacks '=' name ∧ (t = name ∧ u = name ++ "=" ∨ t = name ++ "=" ∧ u = name) := by
  constructor
  · intro heq
    have htext : (parse t).text = (parse u).text := congrArg CallToken.text heq
    rcases text_parse_cases t with ht | ⟨name, hname, rfl, ht⟩ <;>
      rcases text_parse_cases u with hu | ⟨name', hname', rfl, hu⟩ <;> rw [ht, hu] at htext
    · exact absurd htext hne
    · exact ⟨name', hname', .inl ⟨htext, rfl⟩⟩
    · exact ⟨name, hname, .inr ⟨rfl, htext.symm⟩⟩
    · exact absurd (congrArg (· ++ "=") htext) hne
  · rintro ⟨name, hname, ⟨rfl, rfl⟩ | ⟨rfl, rfl⟩⟩
    · rw [parse_of_lacks hname, parse_append_equals hname]
    · rw [parse_of_lacks hname, parse_append_equals hname]

theorem reading_inverts_writing :
    (∀ name, Lacks '=' name → parse name = ⟨name, []⟩ ∧
      ∀ args, (∀ a ∈ args, Lacks ',' a) → args ≠ [] → args ≠ [""] →
        parse (name ++ "=" ++ ",".intercalate args) = ⟨name, args⟩) ∧
    (∀ name, Lacks '=' name → (parse (name ++ "=")).text = name) ∧
    (∀ token, (∀ name, Lacks '=' name → token ≠ name ++ "=") → (parse token).text = token) ∧
    ∀ t u, t ≠ u → (parse t = parse u ↔
      ∃ name, Lacks '=' name ∧ (t = name ∧ u = name ++ "=" ∨ t = name ++ "=" ∧ u = name)) := by
  refine ⟨fun name hname => ⟨parse_of_lacks hname, ?_⟩, fun _ => text_parse_of_trailing, fun _ => text_parse,
    fun _ _ => parse_eq_iff⟩
  intro args hargs hne hblank
  exact parse_written hname hargs hne hblank

theorem reading_inverts_writing_of : parse "of=,a=b," = ⟨"of", ["", "a=b", ""]⟩ ∧ (parse "of=").text = "of" ∧
    (parse "=,x").text = "=,x" ∧ parse "of" = parse "of=" := by
  obtain ⟨hwritten, htrailing, htyped, hsame⟩ := reading_inverts_writing
  have hname : Lacks '=' "of" := by decide
  have htoken : "of" ++ "=" ++ ",".intercalate ["", "a=b", ""] = "of=,a=b," := by decide
  have hargs := (hwritten "of" hname).2 ["", "a=b", ""] (by decide) (by decide) (by decide)
  rw [htoken] at hargs
  refine ⟨hargs, htrailing "of" hname, htyped "=,x" ?_, ?_⟩
  · intro name _ heq
    have hlast := congrArg (·.toList.getLast?) heq
    simp at hlast
  · exact (hsame "of" "of=" (by decide)).mpr ⟨"of", hname, .inl ⟨rfl, rfl⟩⟩

end CallGrammar.CallToken
