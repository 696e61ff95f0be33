import SharpTree.Files.Path

/-!
# The names of a path

A text is cut at its slashes, so what stands before a slash and what stands after
it are cut on their own (`segments_append`). The last name of a path that leads
somewhere is the name of its file, whatever stands before it.
-/

namespace SharpTree

theorem forall_ne_of_not_mem {d : Char} {cs : List Char} (h : d ∉ cs) : ∀ c ∈ cs, decide (c ≠ d) = true := by
  intro c hc
  simpa using fun hd : c = d => h (hd ▸ hc)

theorem segments_ne_nil (cs : List Char) : segments cs ≠ [] := by
  cases cs with
  | nil => simp [segments]
  | cons c cs =>
    simp only [segments]
    split
    · simp
    · split <;> simp

theorem segments_append (u v : List Char) : segments (u ++ '/' :: v) = segments u ++ segments v := by
  induction u with
  | nil => simp [segments]
  | cons c u ih =>
    by_cases hc : c = '/'
    · simp [segments, hc, ih]
    · obtain ⟨s, ss, hs⟩ := List.exists_cons_of_ne_nil (segments_ne_nil u)
      simp [segments, hc, ih, hs]

theorem segments_of_not_mem {cs : List Char} (h : '/' ∉ cs) : segments cs = [cs] := by
  induction cs with
  | nil => rfl
  | cons c cs ih =>
    obtain ⟨hc, hcs⟩ := not_or.mp (mt List.mem_cons.mpr h)
    simp [segments, Ne.symm hc, ih hcs]

theorem segments_intercalate {css : List (List Char)} (hne : css ≠ []) (h : ∀ cs ∈ css, '/' ∉ cs) :
    segments (['/'].intercalate css) = css := by
  induction css with
  | nil => exact absurd rfl hne
  | cons cs css ih =>
    have hcs : segments cs = [cs] := segments_of_not_mem (h cs (by simp))
    cases css with
    | nil => simpa using hcs
    | cons ds css =>
      have ih := ih (by simp) fun x hx => h x (List.mem_cons_of_mem _ hx)
      rw [List.intercalate_cons_cons, List.append_assoc, List.singleton_append, segments_append, hcs, ih]
      rfl

theorem slash_not_mem_segments {cs s : List Char} (h : s ∈ segments cs) : '/' ∉ s := by
  induction cs generalizing s with
  | nil => simp_all [segments]
  | cons c cs ih =>
    obtain ⟨t, ts, ht⟩ := List.exists_cons_of_ne_nil (segments_ne_nil cs)
    rw [ht] at ih
    by_cases hc : c = '/'
    · simp only [segments, hc, if_pos, ht, List.mem_cons] at h
      obtain rfl | h := h
      · simp
      · exact ih (List.mem_cons.mpr h)
    · simp only [segments, if_neg hc, ht, List.mem_cons] at h
      obtain rfl | h := h
      · simpa [Ne.symm hc] using ih (List.mem_cons_self ..)
      · exact ih (List.mem_cons_of_mem _ h)

namespace Path

theorem names_ofString (s : String) :
    (ofString s).names = ((segments s.toList).map String.ofList).filter (· ≠ "") := by
  unfold ofString names
  split
  · rename_i rest hs
    simp [hs, segments]
  · rfl

theorem mem_names {s name : String} (h : name ∈ (ofString s).names) : name ≠ "" ∧ '/' ∉ name.toList := by
  rw [names_ofString] at h
  obtain ⟨hmem, hne⟩ := List.mem_filter.mp h
  obtain ⟨cs, hcs, rfl⟩ := List.mem_map.mp hmem
  refine ⟨by simpa using hne, ?_⟩
  rw [String.toList_ofList]
  exact slash_not_mem_segments hcs

theorem names_ofString_append (dir name : String) :
    (ofString (dir ++ "/" ++ name)).names = (ofString dir).names ++ (ofString name).names := by
  have htext : (dir ++ "/" ++ name).toList = dir.toList ++ '/' :: name.toList := by simp
  rw [names_ofString, names_ofString, names_ofString, htext, segments_append, List.map_append, List.filter_append]

theorem names_of_not_mem {name : String} (h : '/' ∉ name.toList) (hne : name ≠ "") :
    (ofString name).names = [name] := by
  rw [names_ofString, segments_of_not_mem h]
  simp [hne]

/-- Names that are joined by slashes are the stretches of a path that starts in the working directory. -/
theorem ofString_intercalate {names : List String} (hne : names ≠ [])
    (h : ∀ name ∈ names, name ≠ "" ∧ '/' ∉ name.toList) : ofString ("/".intercalate names) = ⟨false, names⟩ := by
  have hcut : segments ("/".intercalate names).toList = names.map String.toList := by
    rw [String.toList_intercalate]
    refine segments_intercalate (by simpa using hne) ?_
    simpa using fun name hname => (h name hname).2
  unfold ofString
  split
  · rename_i rest hs
    obtain ⟨name, names, rfl⟩ := List.exists_cons_of_ne_nil hne
    simp [hs, segments, (h name (by simp)).1] at hcut
  · rw [hcut]
    simp [Function.comp_def]

theorem fileName?_append {name : String} (h : '/' ∉ name.toList) (hne : name ≠ "") (hdot : name ≠ ".")
    (dir : String) : (ofString (dir ++ "/" ++ name)).fileName? = (ofString name).fileName? := by
  unfold fileName?
  rw [names_ofString_append, names_of_not_mem h hne, List.filter_append]
  simp [hdot]

theorem fileName?_of_not_mem {name : String} (h : '/' ∉ name.toList) (hne : name ≠ "") (hdot : name ≠ ".")
    (hdots : name ≠ "..") : (ofString name).fileName? = some name := by
  unfold fileName?
  rw [names_of_not_mem h hne]
  simp [hdot, hdots]

theorem mem_names_of_fileName? {p : Path} {name : String} (h : p.fileName? = some name) : name ∈ p.names := by
  unfold fileName? at h
  split at h
  · rename_i last hlast
    split at h
    · cases h
    · cases h
      exact (List.mem_filter.mp (List.mem_of_getLast? hlast)).1
  · cases h

end Path

/-! ## Stems -/

theorem stem_of_dropWhile {name : String} {before : List Char}
    (h : name.toList.reverse.dropWhile (· ≠ '.') = '.' :: before) (hne : before ≠ []) :
    stem name = String.ofList before.reverse := by
  simp only [stem, h, List.drop_one, List.tail_cons]

theorem stem_cases (name : String) :
    stem name = name ∨ ∃ suffix, stem name ≠ "" ∧ name.toList = (stem name).toList ++ '.' :: suffix := by
  have hsplit := List.takeWhile_append_dropWhile (p := (· ≠ '.')) (l := name.toList.reverse)
  cases hdrop : name.toList.reverse.dropWhile (· ≠ '.') with
  | nil => exact .inl (by simp only [stem, hdrop, List.drop_nil])
  | cons c before =>
    obtain rfl : c = '.' := by
      have := List.head?_dropWhile_not (· ≠ '.') name.toList.reverse
      rw [hdrop] at this
      simpa using this
    by_cases hbefore : before = []
    · exact .inl (by simp only [stem, hdrop, hbefore, List.drop_one, List.tail_cons])
    · refine .inr ⟨(name.toList.reverse.takeWhile (· ≠ '.')).reverse, ?_⟩
      rw [stem_of_dropWhile hdrop hbefore]
      rw [hdrop] at hsplit
      exact ⟨by simpa using hbefore, by simpa using (congrArg List.reverse hsplit).symm⟩

theorem stem_ne_empty {name : String} (h : name ≠ "") : stem name ≠ "" := by
  obtain hname | ⟨suffix, hne, -⟩ := stem_cases name
  · rwa [hname]
  · exact hne

theorem mem_of_mem_stem {name : String} {c : Char} (h : c ∈ (stem name).toList) : c ∈ name.toList := by
  obtain hname | ⟨suffix, -, hname⟩ := stem_cases name
  · rwa [hname] at h
  · rw [hname]
    exact List.mem_append_left _ h

/-- The last dot ends the stem unless it comes first. -/
theorem stem_append {base suffix : String} (hbase : base ≠ "") (hsuffix : '.' ∉ suffix.toList) :
    stem (base ++ "." ++ suffix) = base := by
  have hrev :
      (base ++ "." ++ suffix).toList.reverse = suffix.toList.reverse ++ '.' :: base.toList.reverse := by simp
  have hdrop : (base ++ "." ++ suffix).toList.reverse.dropWhile (· ≠ '.') = '.' :: base.toList.reverse := by
    rw [hrev, List.dropWhile_append_of_pos (forall_ne_of_not_mem (by simpa using hsuffix))]
    simp
  rw [stem_of_dropWhile hdrop (by simpa using hbase)]
  simp

end SharpTree
