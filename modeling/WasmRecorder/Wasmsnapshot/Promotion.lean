import WasmRecorder.Wasmsnapshot.PageCas

/-!
# What gets into the host-wide cache

The host-wide cache is a directory with one file for each page. A file is created exclusively and
then written, and a file that is there already is taken for the page its name stands for. An
insertion that stops halfway leaves a file that is never written again.

* `Tiers.Promotable` — the pages that a promotion brings into the cache.
* `encodeMemory_promotes_iff` — they are exactly the pages found there after a memory was encoded.
-/

namespace Wasmsnapshot

open Fallible

/-! ### Insertions that stop -/

/-- An insertion that may have stopped: in front of the creation of the file, or behind the first
`written` bytes of the page. -/
structure Attempt where
  h : Uint128
  page : Bytes
  created : Bool
  written : Nat

/-- The bytes that reached the file. -/
def Attempt.content (a : Attempt) : Bytes := a.page.take a.written

/-- An attempt got as far as the creation of the file of a name. -/
def Attempt.creates (h : Uint128) (a : Attempt) : Bool := a.h = h ∧ a.created

/-- A cache directory without files. -/
def SystemCache.empty (denied : Uint128 → Bool) : SystemCache := ⟨fun _ => none, denied⟩

/-- The directory behind an attempt. A file that exists is left alone. -/
def SystemCache.attempt (c : SystemCache) (a : Attempt) : SystemCache :=
  if (c.files a.h).isSome ∨ a.created = false then c
  else { c with files := fun h' => if h' = a.h then some a.content else c.files h' }

theorem SystemCache.insert_eq_attempt {c c' : SystemCache} {h : Uint128} {page : Bytes}
    (hinsert : c.insert h page = some c') :
    c' = c.attempt ⟨h, page, true, page.length⟩ := by
  rw [SystemCache.insert] at hinsert
  rw [SystemCache.attempt]
  split at hinsert
  · next hfile =>
    cases hinsert
    rw [if_pos (.inl hfile)]
  split at hinsert
  · cases hinsert
  · next hfile _ =>
    cases hinsert
    rw [if_neg (by simpa using hfile), Attempt.content, List.take_length]

theorem SystemCache.files_attempt (c : SystemCache) (a : Attempt) (h : Uint128) :
    (c.attempt a).files h = (c.files h).or (if a.creates h then some a.content else none) := by
  rw [SystemCache.attempt]
  split
  · next hkeep =>
    cases hfile : c.files h with
    | some data => rfl
    | none =>
      have hnot : a.creates h = false := by
        rw [Attempt.creates, decide_eq_false_iff_not]
        rintro ⟨rfl, hcreated⟩
        rw [hfile, hcreated] at hkeep
        simp at hkeep
      rw [hnot]
      rfl
  · next hnew =>
    rw [not_or, Bool.not_eq_true, Bool.not_eq_false, Option.isSome_eq_false_iff,
      Option.isNone_iff_eq_none] at hnew
    dsimp only
    split
    · next heq =>
      subst heq
      rw [hnew.1, Attempt.creates, decide_eq_true ⟨rfl, hnew.2⟩]
      rfl
    · next hne =>
      have hnot : a.creates h = false := by
        rw [Attempt.creates, decide_eq_false_iff_not]
        exact fun heq => hne heq.1.symm
      rw [hnot]
      exact (Option.or_none).symm

theorem SystemCache.files_attempts (c : SystemCache) (history : List Attempt) (h : Uint128) :
    (history.foldl SystemCache.attempt c).files h =
      (c.files h).or ((history.find? (Attempt.creates h)).map Attempt.content) := by
  induction history generalizing c with
  | nil => exact Option.or_none.symm
  | cons a history ih =>
    rw [List.foldl_cons, ih, SystemCache.files_attempt, List.find?_cons, Option.or_assoc]
    cases a.creates h with
    | true => rfl
    | false => rfl

section Lookup

variable (hashPage : Bytes → Uint128)

theorem SystemCache.lookup_insert_self {c c' : SystemCache} {page : Bytes}
    (hinsert : c.insert (hashPage page) page = some c') :
    c'.lookup hashPage (hashPage page) = some page ↔
      ∀ data, c.files (hashPage page) = some data → data = page := by
  have hfile : c'.files (hashPage page) = (c.files (hashPage page)).or (some page) := by
    rw [SystemCache.insert_eq_attempt hinsert, SystemCache.files_attempt, Attempt.creates,
      if_pos (decide_eq_true ⟨rfl, rfl⟩), Attempt.content, List.take_length]
  rw [SystemCache.lookup, Option.filter_eq_some_iff, hfile]
  cases c.files (hashPage page) with
  | none => simp
  | some data =>
    constructor
    · rintro ⟨heq, -⟩ data' hdata'
      cases hdata'
      exact Option.some.inj heq
    · intro h
      rw [h data rfl]
      exact ⟨rfl, decide_eq_true rfl⟩

/-- **When an insertion makes its page available.** After any history of insertions, each of which
may have stopped anywhere, a page that is inserted without an error is found exactly if the
insertion that created its file, if there was one, had written the whole page. -/
theorem SystemCache.lookup_insert_iff (denied : Uint128 → Bool) (history : List Attempt)
    (page : Bytes) {c' : SystemCache}
    (hinsert : (history.foldl SystemCache.attempt (.empty denied)).insert (hashPage page) page =
      some c') :
    c'.lookup hashPage (hashPage page) = some page ↔
      ∀ a, history.find? (Attempt.creates (hashPage page)) = some a → a.content = page := by
  rw [SystemCache.lookup_insert_self hashPage hinsert, SystemCache.files_attempts]
  change (∀ data, (none.or _) = some data → data = page) ↔ _
  rw [Option.none_or]
  constructor
  · intro h a ha
    exact h a.content (by rw [ha]; rfl)
  · intro h data hdata
    obtain ⟨a, ha, rfl⟩ := Option.map_eq_some_iff.mp hdata
    exact h a ha

end Lookup

/-- The number of bytes as a digest. -/
def lengthHash (data : Bytes) : Uint128 := ⟨UInt64.ofNat data.length, 0⟩

/-- A page that was written before is found once it is inserted again, whatever became of another
page in between. -/
theorem SystemCache.lookup_insert_again :
    ∃ c', ([⟨lengthHash [7], [7], true, 1⟩, ⟨lengthHash [8, 9], [8, 9], true, 1⟩].foldl
        SystemCache.attempt (.empty fun _ => false)).insert (lengthHash [7]) [7] = some c' ∧
      c'.lookup lengthHash (lengthHash [7]) = some [7] := by
  refine ⟨_, rfl, (SystemCache.lookup_insert_iff lengthHash (fun _ => false)
    [⟨lengthHash [7], [7], true, 1⟩, ⟨lengthHash [8, 9], [8, 9], true, 1⟩] [7] rfl).mpr ?_⟩
  rintro _ ⟨⟩
  rfl

/-- An insertion that stopped before the first byte leaves an empty file. The next insertion of the
page takes that file for the page, and a lookup rejects it. -/
theorem SystemCache.lookup_insert_stopped :
    ∃ c', ([⟨lengthHash [7], [7], true, 0⟩].foldl SystemCache.attempt
        (.empty fun _ => false)).insert (lengthHash [7]) [7] = some c' ∧
      c'.lookup lengthHash (lengthHash [7]) = none :=
  ⟨_, rfl, rfl⟩

/-! ### Promotions -/

section Promotion

variable (hashPage : Bytes → Uint128)

/-- A page that a promotion brings into the host-wide cache, or that is there: a file that holds
something else stays as it is, and a page that goes inline is passed over. -/
def Tiers.Promotable (opts : EncodeOptions) (t : Tiers) (c : SystemCache) (h : Uint128) : Prop :=
  c.lookup hashPage h ≠ none ∨
    c.files h = none ∧ (opts.inlineMissedPages = false ∨ h ∈ t.perTrace)

variable {hashPage} {opts : EncodeOptions} {t t' : Tiers} {c : SystemCache}

theorem promote_files (hopt : opts.promoteToSystem = true) (hc : t.system = some c) {h : Uint128}
    {page : Bytes} (hpromote : promote hashPage opts t h page = .ok t') :
    t'.perTrace = t.perTrace ∧ ∃ c', t'.system = some c' ∧
      ∀ h', c'.files h' = if h' = h then some ((c.files h).getD page) else c.files h' := by
  have hkeep : ∀ data, c.files h = some data → ∀ h',
      c.files h' = if h' = h then some ((c.files h).getD page) else c.files h' := by
    intro data hdata h'
    split
    · next heq => rw [heq, hdata, Option.getD_some]
    · rfl
  rw [promote, hc] at hpromote
  dsimp only at hpromote
  split at hpromote
  · split at hpromote
    · next c' hinsert =>
      cases hpromote
      refine ⟨rfl, c', rfl, fun h' => ?_⟩
      rw [SystemCache.insert_eq_attempt hinsert, SystemCache.files_attempt, Attempt.creates,
        Attempt.content, List.take_length]
      dsimp only
      by_cases heq : h' = h
      · rw [if_pos heq, heq, if_pos (decide_eq_true ⟨rfl, rfl⟩)]
        cases c.files h with
        | none => rfl
        | some data => rfl
      · rw [if_neg heq, if_neg (by rw [decide_eq_true_iff]; exact fun h => heq h.1.symm),
          Option.or_none]
    · cases hpromote
  · next hcond =>
    cases hpromote
    refine ⟨rfl, c, hc, ?_⟩
    -- the page is found, so its file is there
    have hfound : c.lookup hashPage h ≠ none := fun hnone => hcond ⟨hopt, hnone⟩
    obtain ⟨data, hdata⟩ : ∃ data, c.files h = some data := by
      rw [SystemCache.lookup] at hfound
      cases hfile : c.files h with
      | some data => exact ⟨data, rfl⟩
      | none =>
        rw [hfile] at hfound
        exact absurd rfl hfound
    exact hkeep data hdata

/-- One page: it is found in the host-wide cache afterwards if it could be promoted, and which pages
can be promoted does not change. -/
structure Promotes (hashPage : Bytes → Uint128) (opts : EncodeOptions) (t : Tiers)
    (c : SystemCache) (pages : List Bytes) (t' : Tiers) (c' : SystemCache) : Prop where
  system : t'.system = some c'
  same : ∀ h, t'.Promotable hashPage opts c' h ↔ t.Promotable hashPage opts c h
  stays : ∀ h, c.lookup hashPage h ≠ none → c'.lookup hashPage h ≠ none
  found : ∀ page ∈ pages, t.Promotable hashPage opts c (hashPage page) →
    c'.lookup hashPage (hashPage page) ≠ none

theorem Tiers.lookup_eq_none_iff (hc : t.system = some c) {h : Uint128} :
    t.lookup hashPage h = none ↔ h ∉ t.perTrace ∧ c.lookup hashPage h = none := by
  rw [Tiers.lookup, hc, Option.bind_some, ← AList.lookup_eq_none]
  cases AList.lookup h t.perTrace with
  | some page => exact ⟨nofun, fun h => (by cases h.1)⟩
  | none =>
    dsimp only
    rw [Option.map_eq_none_iff]
    exact ⟨fun h => ⟨rfl, h⟩, fun h => h.2⟩

theorem promotes_promoted (hc : t.system = some c) {page : Bytes} {t₁ : Tiers}
    (hopt : opts.promoteToSystem = true)
    (hheld : opts.inlineMissedPages = false ∨ t.lookup hashPage (hashPage page) ≠ none)
    (hpromote : promote hashPage opts t₁ (hashPage page) page = .ok t')
    (hsystem : t₁.system = t.system)
    (hown : ∀ h, h ≠ hashPage page → (h ∈ t₁.perTrace ↔ h ∈ t.perTrace)) :
    ∃ c', Promotes hashPage opts t c [page] t' c' := by
  obtain ⟨hkeep, c', hc', hfiles⟩ := promote_files hopt (hsystem.trans hc) hpromote
  have hother : ∀ h, h ≠ hashPage page → c'.lookup hashPage h = c.lookup hashPage h := by
    intro h hne
    rw [SystemCache.lookup, SystemCache.lookup, hfiles, if_neg hne]
  have hthis : c'.lookup hashPage (hashPage page) ≠ none ↔
      c.lookup hashPage (hashPage page) ≠ none ∨ c.files (hashPage page) = none := by
    rw [SystemCache.lookup, SystemCache.lookup, hfiles, if_pos rfl]
    cases c.files (hashPage page) with
    | none => simp
    | some data => simp
  have hpromotable : c.lookup hashPage (hashPage page) ≠ none ∨ c.files (hashPage page) = none ↔
      t.Promotable hashPage opts c (hashPage page) := by
    rw [Tiers.Promotable]
    refine or_congr_right' fun hnone => ⟨fun hfile => ⟨hfile, hheld.imp_right fun hlookup => ?_⟩,
      And.left⟩
    rw [Ne, Tiers.lookup_eq_none_iff hc, not_and_or, not_not] at hlookup
    exact hlookup.resolve_right hnone
  refine ⟨c', hc', fun h => ?_, fun h hfound => ?_, fun q hq hprom => ?_⟩
  · by_cases heq : h = hashPage page
    · subst heq
      have hfile : c'.files (hashPage page) ≠ none := by
        rw [hfiles, if_pos rfl]
        exact Option.some_ne_none _
      rw [← hpromotable, ← hthis, Tiers.Promotable]
      exact ⟨fun h => h.resolve_right fun h => hfile h.1, .inl⟩
    · rw [Tiers.Promotable, Tiers.Promotable, hother h heq, hfiles, if_neg heq, hkeep, hown h heq]
  · by_cases heq : h = hashPage page
    · subst heq
      exact hthis.mpr (.inl hfound)
    · rw [hother h heq]
      exact hfound
  · rw [List.mem_singleton.mp hq] at hprom ⊢
    exact hthis.mpr (hpromotable.mpr hprom)

theorem encodePage_promotes (hopt : opts.promoteToSystem = true) {off : UInt64}
    {s s' : EncodeState} (hc : s.tiers.system = some c) {page : Bytes}
    (h : encodePage hashPage opts off s page = .ok s') :
    ∃ c', Promotes hashPage opts s.tiers c [page] s'.tiers c' := by
  rw [encodePage] at h
  dsimp only at h
  split at h
  · next hinline =>
    cases h
    refine ⟨c, hc, fun h => Iff.rfl, fun h => id, fun q hq hprom => ?_⟩
    obtain ⟨hnot, hnone⟩ := (Tiers.lookup_eq_none_iff hc).mp hinline.1
    rw [List.mem_singleton.mp hq] at hprom ⊢
    rcases hprom with hfound | ⟨-, hoff | hmem⟩
    · exact hfound
    · rw [hinline.2] at hoff
      cases hoff
    · exact absurd hmem hnot
  · next hstored =>
    have hheld : opts.inlineMissedPages = false ∨
        s.tiers.lookup hashPage (hashPage page) ≠ none := by
      rw [not_and_or, Bool.not_eq_true] at hstored
      exact hstored.symm
    cases hfound : s.tiers.lookup hashPage (hashPage page) with
    | some found =>
      obtain ⟨q, tier⟩ := found
      rw [hfound] at h
      obtain ⟨tiers, hpromote, h⟩ := bind_eq_ok.mp h
      cases h
      exact promotes_promoted hc hopt hheld hpromote rfl fun h _ => Iff.rfl
    | none =>
      rw [hfound] at h
      obtain ⟨tiers, hpromote, h⟩ := bind_eq_ok.mp h
      cases h
      refine promotes_promoted hc hopt hheld hpromote rfl fun h hne => ?_
      rw [mem_insert_perTrace, or_iff_right hne]

theorem encodePages_promotes (hopt : opts.promoteToSystem = true) {memBase : UInt64} {i : Nat}
    {s s' : EncodeState} (hc : s.tiers.system = some c) {pages : List Bytes}
    (h : encodePages hashPage opts memBase i pages s = .ok s') :
    ∃ c', Promotes hashPage opts s.tiers c pages s'.tiers c' := by
  induction pages generalizing i s c with
  | nil =>
    cases h
    exact ⟨c, hc, fun h => Iff.rfl, fun h => id, fun q hq => absurd hq List.not_mem_nil⟩
  | cons page pages ih =>
    rw [encodePages] at h
    obtain ⟨s₁, h₁, h⟩ := bind_eq_ok.mp h
    obtain ⟨c₁, hone⟩ := encodePage_promotes hopt hc h₁
    obtain ⟨c', hrest⟩ := ih hone.system h
    refine ⟨c', hrest.system, fun h => (hrest.same h).trans (hone.same h),
      fun h hfound => hrest.stays h (hone.stays h hfound), fun q hq hprom => ?_⟩
    rcases List.mem_cons.mp hq with rfl | hq
    · exact hrest.stays _ (hone.found q List.mem_cons_self hprom)
    · exact hrest.found q hq ((hone.same _).mpr hprom)

/-- **Which pages of a memory are in the host-wide cache afterwards.** Promotion covers a memory
exactly if every page of it was there, or had no file there and did not go inline. -/
theorem encodeMemory_promotes_iff (hopt : opts.promoteToSystem = true) (hc : t.system = some c)
    {memory : Bytes} {memBase : UInt64} {regions : List Region} {inline : Bytes}
    (h : encodeMemory hashPage memory t memBase opts = .ok (regions, inline, t')) :
    ∃ c', t'.system = some c' ∧
      ((∀ page ∈ Runs.runs pageSize memory, c'.lookup hashPage (hashPage page) ≠ none) ↔
        ∀ page ∈ Runs.runs pageSize memory, t.Promotable hashPage opts c (hashPage page)) := by
  rw [encodeMemory] at h
  split at h
  · cases h
  obtain ⟨s, hs, h⟩ := bind_eq_ok.mp h
  cases h
  obtain ⟨c', hpages⟩ := encodePages_promotes hopt (s := ⟨[], none, [], t⟩) hc hs
  refine ⟨c', hpages.system, fun hall page hpage => ?_, fun hall page hpage => ?_⟩
  · exact (hpages.same _).mp (.inl (hall page hpage))
  · exact hpages.found page hpage (hall page hpage)

theorem encodeMemory_miss (hashPage : Bytes → Uint128) :
    ∃ regions inline t', encodeMemory hashPage zeroPage ⟨∅, some (.empty fun _ => false)⟩ 0
      ⟨false, true⟩ = .ok (regions, inline, t') := by
  rw [encodeMemory, if_neg (by rw [length_zeroPage]; decide),
    Runs.runs_of_length_eq (by decide) length_zeroPage]
  exact ⟨_, _, _, rfl⟩

end Promotion

/-- Promotion into an empty cache, of a page that goes into the per-trace tier. -/
theorem encodeMemory_promotes_zeroPage :
    ∃ regions inline t', encodeMemory lengthHash zeroPage ⟨∅, some (.empty fun _ => false)⟩ 0
        ⟨false, true⟩ = .ok (regions, inline, t') ∧
      ∃ c', t'.system = some c' ∧
        ∀ page ∈ Runs.runs pageSize zeroPage, c'.lookup lengthHash (lengthHash page) ≠ none := by
  obtain ⟨regions, inline, t', h⟩ := encodeMemory_miss lengthHash
  obtain ⟨c', hc', hiff⟩ := encodeMemory_promotes_iff rfl rfl h
  exact ⟨regions, inline, t', h, c', hc', hiff.mpr fun page _ => .inr ⟨rfl, .inl rfl⟩⟩

/-- A page that goes inline is not promoted. -/
theorem encodeMemory_inlined :
    ∃ regions inline t', encodeMemory lengthHash zeroPage ⟨∅, some (.empty fun _ => false)⟩ 0
        ⟨true, true⟩ = .ok (regions, inline, t') ∧
      ∃ c', t'.system = some c' ∧ ∃ page ∈ Runs.runs pageSize zeroPage,
        c'.lookup lengthHash (lengthHash page) = none := by
  rw [encodeMemory, if_neg (by rw [length_zeroPage]; decide),
    Runs.runs_of_length_eq (by decide) length_zeroPage]
  exact ⟨_, _, _, rfl, _, rfl, zeroPage, List.mem_singleton_self _, rfl⟩

end Wasmsnapshot
