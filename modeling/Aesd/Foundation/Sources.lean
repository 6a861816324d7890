import Aesd.Foundation.Grouping

/-!
# Groups of chunks from several sources

Several sources hand in their chunks one source after the other, and the chunks are cut into
groups as if they came from one. Each element is tagged with the number of its source. All
groups come from one source each exactly when no source stops inside a group that a later one
closes.
-/

namespace Aesd.Foundation

variable {Element : Type*} {ends : Element → Bool}

def Closes (ends : Element → Bool) (chunks : List (List Element)) : Prop :=
  ∃ chunk ∈ chunks, chunk.any ends = true

def EndsOpen (ends : Element → Bool) (chunks : List (List Element)) : Prop :=
  ∃ last, chunks.getLast? = some last ∧ last.any ends = false

/-- The chunk of a source, each element with the number of the source. -/
def tagged (source : ℕ) (chunk : List Element) : List (Element × ℕ) := chunk.map fun x ↦ (x, source)

/-- The chunks of all sources in order, the first source having a given number. -/
def taggedFrom : ℕ → List (List (List Element)) → List (List (Element × ℕ))
  | _, [] => []
  | source, chunks :: rest => chunks.map (tagged source) ++ taggedFrom (source + 1) rest

def FromOneSource (group : List (Element × ℕ)) : Prop := ∃ source, ∀ x ∈ group, x.2 = source

@[simp]
theorem map_fst_tagged (source : ℕ) (chunk : List Element) :
    (tagged source chunk).map Prod.fst = chunk := by
  simp [tagged, Function.comp_def]

@[simp]
theorem any_tagged (source : ℕ) (chunk : List Element) :
    (tagged source chunk).any (ends ∘ Prod.fst) = chunk.any ends := by
  simp [tagged, Function.comp_def]

theorem snd_of_mem_tagged {source : ℕ} {chunk : List Element} {x : Element × ℕ}
    (h : x ∈ tagged source chunk) : x.2 = source := by
  obtain ⟨y, -, rfl⟩ := List.mem_map.mp h
  rfl

theorem map_map_fst_tagged (source : ℕ) (chunks : List (List Element)) :
    (chunks.map (tagged source)).map (List.map Prod.fst) = chunks := by
  rw [List.map_map]
  exact (List.map_congr_left fun chunk _ ↦ map_fst_tagged source chunk).trans (List.map_id _)

theorem map_map_fst_taggedFrom (source : ℕ) (sources : List (List (List Element))) :
    (taggedFrom source sources).map (List.map Prod.fst) = sources.flatten := by
  induction sources generalizing source with
  | nil => rfl
  | cons chunks rest ih =>
    rw [taggedFrom, List.map_append, map_map_fst_tagged, ih, List.flatten_cons]

/-- Cutting does not look at anything but the ends. -/
theorem cutAfter_map {Other : Type*} (f : Other → Element) (opened : List Other)
    (chunks : List (List Other)) :
    cutAfter ends (opened.map f) (chunks.map (List.map f)) =
      ((cutAfter (ends ∘ f) opened chunks).1.map (List.map f),
        (cutAfter (ends ∘ f) opened chunks).2.map f) := by
  induction chunks generalizing opened with
  | nil => rfl
  | cons chunk rest ih =>
    have hany : (chunk.map f).any ends = chunk.any (ends ∘ f) := List.any_map
    have hnil := ih []
    rw [List.map_nil] at hnil
    cases hchunk : chunk.any (ends ∘ f) with
    | true =>
      rw [List.map_cons, cutAfter_cons_of_end (hany.trans hchunk), cutAfter_cons_of_end hchunk,
        hnil, List.map_cons, List.map_append]
    | false =>
      rw [List.map_cons, cutAfter_cons_of_open (hany.trans hchunk),
        cutAfter_cons_of_open hchunk, ← List.map_append, ih]

/-! ## One source -/

section One

theorem not_closes_nil : ¬ Closes ends ([] : List (List Element)) := by
  rintro ⟨chunk, hchunk, -⟩
  exact absurd hchunk List.not_mem_nil

theorem closes_cons_iff (chunk : List Element) (rest : List (List Element)) :
    Closes ends (chunk :: rest) ↔ chunk.any ends = true ∨ Closes ends rest := by
  simp [Closes]

theorem endsOpen_cons_iff (chunk : List Element) (rest : List (List Element)) :
    EndsOpen ends (chunk :: rest) ↔
      (rest = [] ∧ chunk.any ends = false) ∨ EndsOpen ends rest := by
  cases rest with
  | nil => simp [EndsOpen]
  | cons next rest => simp [EndsOpen, List.getLast?_cons_cons]

/-- Chunks without an end, if there are any, end open. -/
theorem endsOpen_of_not_closes {chunks : List (List Element)} (hne : chunks ≠ [])
    (h : ¬ Closes ends chunks) : EndsOpen ends chunks := by
  refine ⟨chunks.getLast hne, List.getLast?_eq_some_getLast hne, ?_⟩
  rw [← Bool.not_eq_true]
  exact fun hend ↦ h ⟨_, List.getLast_mem hne, hend⟩

/-- The groups a source closes are its own exactly when it closes none or what was open is its
own. -/
theorem fromOneSource_tagged_iff (source : ℕ) {chunks : List (List Element)}
    (hne : ∀ chunk ∈ chunks, chunk ≠ []) (opened : List (Element × ℕ)) :
    (∀ group ∈ (cutAfter (ends ∘ Prod.fst) opened (chunks.map (tagged source))).1,
        FromOneSource group) ↔
      (Closes ends chunks → ∀ x ∈ opened, x.2 = source) := by
  induction chunks generalizing opened with
  | nil => exact ⟨fun _ hcloses ↦ absurd hcloses not_closes_nil, fun _ _ hmem ↦
      absurd hmem List.not_mem_nil⟩
  | cons chunk rest ih =>
    rw [List.forall_mem_cons] at hne
    obtain ⟨hchunk, hrest⟩ := hne
    have hany : (tagged source chunk).any (ends ∘ Prod.fst) = chunk.any ends :=
      any_tagged source chunk
    rw [List.map_cons, closes_cons_iff]
    cases hend : chunk.any ends with
    | true =>
      have hlater : ∀ group ∈ (cutAfter (ends ∘ Prod.fst) [] (rest.map (tagged source))).1,
          FromOneSource group := (ih hrest []).mpr fun _ x hx ↦ absurd hx List.not_mem_nil
      have hgroup : FromOneSource (opened ++ tagged source chunk) ↔ ∀ x ∈ opened, x.2 = source := by
        obtain ⟨first, later, rfl⟩ := List.exists_cons_of_ne_nil hchunk
        constructor
        · rintro ⟨other, hother⟩ x hx
          have hfirst := hother (first, source)
            (List.mem_append_right _ (List.mem_cons_self ..))
          exact (hother x (List.mem_append_left _ hx)).trans hfirst.symm
        · intro hopened
          refine ⟨source, fun x hx ↦ ?_⟩
          rcases List.mem_append.mp hx with hold | hnew
          · exact hopened x hold
          · exact snd_of_mem_tagged hnew
      rw [cutAfter_cons_of_end (hany.trans hend), List.forall_mem_cons, hgroup]
      exact ⟨fun hboth _ ↦ hboth.1, fun hopened ↦ ⟨hopened (Or.inl rfl), hlater⟩⟩
    | false =>
      have hsame : (∀ x ∈ opened ++ tagged source chunk, x.2 = source) ↔
          ∀ x ∈ opened, x.2 = source := by
        rw [List.forall_mem_append]
        exact and_iff_left fun x hx ↦ snd_of_mem_tagged hx
      rw [cutAfter_cons_of_open (hany.trans hend), ih hrest, hsame, or_iff_right Bool.false_ne_true]

/-- Something is open after a source that ends open, and after one that closes nothing when
something was open before. -/
theorem cutAfter_open_ne_nil_iff {chunks : List (List Element)}
    (hne : ∀ chunk ∈ chunks, chunk ≠ []) (opened : List Element) :
    (cutAfter ends opened chunks).2 ≠ [] ↔
      EndsOpen ends chunks ∨ (¬ Closes ends chunks ∧ opened ≠ []) := by
  induction chunks generalizing opened with
  | nil => simp [EndsOpen, Closes]
  | cons chunk rest ih =>
    rw [List.forall_mem_cons] at hne
    obtain ⟨hchunk, hrest⟩ := hne
    rw [closes_cons_iff, endsOpen_cons_iff]
    cases hend : chunk.any ends with
    | true =>
      rw [cutAfter_cons_of_end hend, ih hrest]
      simp
    | false =>
      have hopened : opened ++ chunk ≠ [] := List.append_ne_nil_of_right_ne_nil _ hchunk
      rw [cutAfter_cons_of_open hend, ih hrest]
      by_cases hlast : rest = []
      · simp [hlast, EndsOpen, Closes, hopened]
      · by_cases hcloses : Closes ends rest
        · simp [hlast, hcloses]
        · simp [endsOpen_of_not_closes hlast hcloses]

/-- The same for chunks that carry their source. -/
theorem cutAfter_tagged_open_ne_nil_iff (source : ℕ) {chunks : List (List Element)}
    (hne : ∀ chunk ∈ chunks, chunk ≠ []) (opened : List (Element × ℕ)) :
    (cutAfter (ends ∘ Prod.fst) opened (chunks.map (tagged source))).2 ≠ [] ↔
      EndsOpen ends chunks ∨ (¬ Closes ends chunks ∧ opened ≠ []) := by
  have hcut : cutAfter ends (opened.map Prod.fst)
      ((chunks.map (tagged source)).map (List.map Prod.fst)) =
        ((cutAfter (ends ∘ Prod.fst) opened (chunks.map (tagged source))).1.map
            (List.map Prod.fst),
          (cutAfter (ends ∘ Prod.fst) opened (chunks.map (tagged source))).2.map Prod.fst) :=
    cutAfter_map Prod.fst opened (chunks.map (tagged source))
  have hiff : (cutAfter ends (opened.map Prod.fst) chunks).2 ≠ [] ↔
      EndsOpen ends chunks ∨ (¬ Closes ends chunks ∧ opened.map Prod.fst ≠ []) :=
    cutAfter_open_ne_nil_iff hne (opened.map Prod.fst)
  rw [map_map_fst_tagged] at hcut
  rw [hcut, ne_eq, ne_eq, List.map_eq_nil_iff, List.map_eq_nil_iff] at hiff
  exact hiff

/-- What is open after a source is its own or was open before. -/
theorem snd_lt_of_mem_open {source : ℕ} (chunks : List (List Element))
    {opened : List (Element × ℕ)} (hopened : ∀ x ∈ opened, x.2 < source) {x : Element × ℕ}
    (hx : x ∈ (cutAfter (ends ∘ Prod.fst) opened (chunks.map (tagged source))).2) :
    x.2 < source + 1 := by
  have hmem := List.mem_append_right
    (cutAfter (ends ∘ Prod.fst) opened (chunks.map (tagged source))).1.flatten hx
  rw [flatten_cutAfter, List.mem_append] at hmem
  rcases hmem with hold | hnew
  · exact Nat.lt_succ_of_lt (hopened x hold)
  · obtain ⟨group, hgroup, hxgroup⟩ := List.mem_flatten.mp hnew
    obtain ⟨chunk, -, rfl⟩ := List.mem_map.mp hgroup
    rw [snd_of_mem_tagged hxgroup]
    exact Nat.lt_succ_self source

end One

/-! ## All sources -/

/-- Groups cut from the chunks of several sources come from one source each exactly when what is
open at first is closed by none of them and no source ends open before one that closes. -/
theorem fromOneSource_taggedFrom_iff {sources : List (List (List Element))}
    (hne : ∀ chunks ∈ sources, ∀ chunk ∈ chunks, chunk ≠ []) (source : ℕ)
    {opened : List (Element × ℕ)} (hopened : ∀ x ∈ opened, x.2 < source) :
    (∀ group ∈ (cutAfter (ends ∘ Prod.fst) opened (taggedFrom source sources)).1,
        FromOneSource group) ↔
      (opened ≠ [] → ∀ chunks ∈ sources, ¬ Closes ends chunks) ∧
        sources.Pairwise fun earlier later ↦ ¬ (EndsOpen ends earlier ∧ Closes ends later) := by
  induction sources generalizing source opened with
  | nil => simp [taggedFrom]
  | cons chunks rest ih =>
    rw [List.forall_mem_cons] at hne
    obtain ⟨hchunks, hrest⟩ := hne
    have hlast : (cutAfter (ends ∘ Prod.fst) opened (chunks.map (tagged source))).2 ≠ [] ↔
        EndsOpen ends chunks ∨ (¬ Closes ends chunks ∧ opened ≠ []) :=
      cutAfter_tagged_open_ne_nil_iff source hchunks opened
    have hopen : ∀ x ∈ (cutAfter (ends ∘ Prod.fst) opened (chunks.map (tagged source))).2,
        x.2 < source + 1 := fun x hx ↦ snd_lt_of_mem_open chunks hopened hx
    have hown : (∀ x ∈ opened, x.2 = source) ↔ opened = [] := by
      constructor
      · intro hall
        rw [List.eq_nil_iff_forall_not_mem]
        exact fun x hx ↦ absurd (hall x hx) (Nat.ne_of_lt (hopened x hx))
      · rintro rfl x hx
        exact absurd hx List.not_mem_nil
    rw [taggedFrom, cutAfter_append, List.forall_mem_append,
      fromOneSource_tagged_iff source hchunks, hown, ih hrest (source + 1) hopen, hlast,
      List.pairwise_cons, List.forall_mem_cons]
    by_cases hcloses : Closes ends chunks
    · by_cases hnil : opened = []
      · simp only [hcloses, hnil, not_true_eq_false, false_and, or_false, ne_eq, true_implies,
          true_and, false_implies, not_and]
        exact and_congr_left fun _ ↦
          ⟨fun h c hc hends ↦ h hends c hc, fun h hends c hc ↦ h c hc hends⟩
      · simp [hcloses, hnil]
    · by_cases hnil : opened = []
      · simp only [hcloses, hnil, ne_eq, not_true_eq_false, and_false, or_false, false_implies,
          true_and, not_and]
        exact and_congr_left fun _ ↦
          ⟨fun h c hc hends ↦ h hends c hc, fun h hends c hc ↦ h c hc hends⟩
      · simp only [hcloses, hnil, ne_eq, not_false_eq_true, and_self, or_true, true_implies,
          false_implies, true_and, not_and]
        exact ⟨fun h ↦ ⟨h.1, fun c hc _ ↦ h.1 c hc, h.2⟩, fun h ↦ ⟨h.1, h.2.2⟩⟩

/-- Lists of lists of the same lengths whose elements are prefixes of one list are the same. -/
theorem eq_of_flatten_isPrefix {first second : List (List Element)} {stream : List Element}
    (hfirst : first.flatten <+: stream) (hsecond : second.flatten <+: stream)
    (hlength : first.map List.length = second.map List.length) : first = second := by
  rw [List.eq_iff_flatten_eq]
  refine ⟨?_, hlength⟩
  have htotal : first.flatten.length = second.flatten.length := by
    rw [List.length_flatten, List.length_flatten, hlength]
  exact (List.prefix_of_prefix_length_le hfirst hsecond (Nat.le_of_eq htotal)).eq_of_length htotal

/-- Pieces that are cut from the front of the tagged stream and read as the groups are the
groups. -/
theorem exists_pieces_iff_groups {sources : List (List (List Element))}
    {groups : List (List Element)} (hgroups : groups = (cutAfter ends [] sources.flatten).1)
    (property : List (Element × ℕ) → Prop) :
    (∃ pieces : List (List (Element × ℕ)), pieces.flatten <+: (taggedFrom 0 sources).flatten ∧
        pieces.map (List.map Prod.fst) = groups ∧ ∀ piece ∈ pieces, property piece) ↔
      ∀ group ∈ (cutAfter (ends ∘ Prod.fst) [] (taggedFrom 0 sources)).1, property group := by
  have hcut : cutAfter ends ([].map Prod.fst) ((taggedFrom 0 sources).map (List.map Prod.fst)) =
      ((cutAfter (ends ∘ Prod.fst) [] (taggedFrom 0 sources)).1.map (List.map Prod.fst),
        (cutAfter (ends ∘ Prod.fst) [] (taggedFrom 0 sources)).2.map Prod.fst) :=
    cutAfter_map Prod.fst [] (taggedFrom 0 sources)
  rw [map_map_fst_taggedFrom, List.map_nil] at hcut
  have hfront : (cutAfter (ends ∘ Prod.fst) [] (taggedFrom 0 sources)).1.flatten <+:
      (taggedFrom 0 sources).flatten := by
    exact ⟨_, flatten_cutAfter [] (taggedFrom 0 sources)⟩
  rw [hcut] at hgroups
  constructor
  · rintro ⟨pieces, hpieces, hread, hall⟩
    have hsame : pieces = (cutAfter (ends ∘ Prod.fst) [] (taggedFrom 0 sources)).1 := by
      apply eq_of_flatten_isPrefix hpieces hfront
      have hlengths := congrArg (List.map List.length) (hread.trans hgroups)
      simpa only [List.map_map, Function.comp_def, List.length_map] using hlengths
    exact hsame ▸ hall
  · exact fun hall ↦ ⟨_, hfront, hgroups.symm, hall⟩

end Aesd.Foundation
