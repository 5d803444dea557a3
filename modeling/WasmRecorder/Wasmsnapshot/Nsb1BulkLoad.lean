import WasmRecorder.Wasmsnapshot.Nsb1Search

/-!
# Bulk loading

`nsBulkLoad` packs sorted entries into leaves and then level upon level of internal nodes, until
one node is left.

* `nsBulkLoad_spec` — the image the writer produces.
* `nsBulkLoad_searchable` — the image loads, and both readers find in it exactly the entries.
-/

namespace Wasmsnapshot

open Checked LittleEndian Runs SearchTree Slice

/-! ### Levels -/

/-- The tree below a node of a level. -/
structure Subtree (fetch : UInt64 → Option (Node UInt64 UInt64 Bytes)) (d : Nat) (node : LevelNode)
    (es : List NsEntry) (vs : List UInt64) : Prop where
  entries : SearchTree.entries fetch d node.page = some es
  visited : SearchTree.visited fetch d node.page = some vs
  separated : Separated fetch d node.page
  minKey : es.head?.map Prod.fst = some node.minKey

/-- The trees below the nodes of a level. -/
inductive Level (fetch : UInt64 → Option (Node UInt64 UInt64 Bytes)) (d : Nat) :
    List LevelNode → List (List NsEntry) → List (List UInt64) → Prop where
  | nil : Level fetch d [] [] []
  | cons {node : LevelNode} {nodes : List LevelNode} {es : List NsEntry} {ess : List (List NsEntry)}
      {vs : List UInt64} {vss : List (List UInt64)} : Subtree fetch d node es vs →
      Level fetch d nodes ess vss → Level fetch d (node :: nodes) (es :: ess) (vs :: vss)

section Levels

variable {fetch fetch' : UInt64 → Option (Node UInt64 UInt64 Bytes)} {d : Nat}
  {nodes nodes' : List LevelNode} {ess ess' : List (List NsEntry)} {vss vss' : List (List UInt64)}

variable {node : LevelNode} {es : List NsEntry}

theorem Subtree.mono (hfetch : ∀ p n, fetch p = some n → fetch' p = some n) {d' : Nat}
    (hd : d ≤ d') {vs : List UInt64} (h : Subtree fetch d node es vs) :
    Subtree fetch' d' node es vs :=
  ⟨entries_mono hfetch hd h.entries, visited_mono hfetch hd h.visited,
    h.separated.mono hfetch hd h.entries, h.minKey⟩

theorem Level.mono (hfetch : ∀ p n, fetch p = some n → fetch' p = some n)
    (h : Level fetch d nodes ess vss) : Level fetch' d nodes ess vss := by
  induction h with
  | nil => exact .nil
  | cons hnode _ ih => exact .cons (hnode.mono hfetch (le_refl _)) ih

theorem Level.append (h : Level fetch d nodes ess vss) (h' : Level fetch d nodes' ess' vss') :
    Level fetch d (nodes ++ nodes') (ess ++ ess') (vss ++ vss') := by
  induction h with
  | nil => exact h'
  | cons hnode _ ih => exact .cons hnode ih

theorem Level.split (h : Level fetch d (nodes ++ nodes') ess vss) :
    ∃ ess₁ ess₂ vss₁ vss₂, ess = ess₁ ++ ess₂ ∧ vss = vss₁ ++ vss₂ ∧
      Level fetch d nodes ess₁ vss₁ ∧ Level fetch d nodes' ess₂ vss₂ := by
  induction nodes generalizing ess vss with
  | nil => exact ⟨[], ess, [], vss, rfl, rfl, .nil, h⟩
  | cons node nodes ih =>
    cases h with
    | cons hnode hrest =>
      obtain ⟨ess₁, ess₂, vss₁, vss₂, rfl, rfl, h₁, h₂⟩ := ih hrest
      exact ⟨_ :: ess₁, ess₂, _ :: vss₁, vss₂, rfl, rfl, .cons hnode h₁, h₂⟩

theorem Level.length_eq (h : Level fetch d nodes ess vss) : ess.length = nodes.length := by
  induction h with
  | nil => rfl
  | cons _ _ ih => rw [List.length_cons, List.length_cons, ih]

theorem Level.mapM_entries (h : Level fetch d nodes ess vss) :
    (nodes.map LevelNode.page).mapM (SearchTree.entries fetch d) = some ess := by
  rw [mapM_eq_some_iff]
  induction h with
  | nil => exact .nil
  | cons hnode _ ih => exact .cons hnode.entries ih

theorem Level.mapM_visited (h : Level fetch d nodes ess vss) :
    (nodes.map LevelNode.page).mapM (SearchTree.visited fetch d) = some vss := by
  rw [mapM_eq_some_iff]
  induction h with
  | nil => exact .nil
  | cons hnode _ ih => exact .cons hnode.visited ih

theorem Level.getElem? (h : Level fetch d nodes ess vss) {i : Nat} (hi : nodes[i]? = some node) :
    ∃ es vs, ess[i]? = some es ∧ Subtree fetch d node es vs := by
  induction h generalizing i with
  | nil => cases hi
  | cons hnode _ ih =>
    cases i with
    | zero => cases hi; exact ⟨_, _, rfl, hnode⟩
    | succ i => exact ih hi

theorem Subtree.minKey_le {vs : List UInt64} (h : Subtree fetch d node es vs)
    (hasc : Ascending es) {e : NsEntry} (he : e ∈ es) : node.minKey ≤ e.1 := by
  have hmin := h.minKey
  cases es with
  | nil => cases he
  | cons e₀ es =>
    have heq : e₀.1 = node.minKey := Option.some.inj hmin
    rw [← heq]
    rcases List.mem_cons.mp he with rfl | he
    · exact le_refl _
    · exact le_of_lt ((List.pairwise_cons.mp hasc).1 e he)

theorem Subtree.exists_minKey {vs : List UInt64} (h : Subtree fetch d node es vs) :
    ∃ e ∈ es, e.1 = node.minKey := by
  have hmin := h.minKey
  cases es with
  | nil => cases hmin
  | cons e₀ es => exact ⟨e₀, List.mem_cons_self, Option.some.inj hmin⟩

theorem lt_of_getElem? (hasc : Ascending ess.flatten) {i j : Nat} (hij : i < j)
    {es' : List NsEntry} (hi : ess[i]? = some es) (hj : ess[j]? = some es') {e e' : NsEntry}
    (he : e ∈ es) (he' : e' ∈ es') : e.1 < e'.1 := by
  obtain ⟨hlt, rfl⟩ := List.getElem?_eq_some_iff.mp hi
  obtain ⟨hlt', rfl⟩ := List.getElem?_eq_some_iff.mp hj
  exact List.pairwise_iff_getElem.mp (List.pairwise_flatten.mp hasc).2 i j hlt hlt' hij e he e' he'

theorem Level.pairwise_minKey (h : Level fetch d nodes ess vss) (hasc : Ascending ess.flatten) :
    (nodes.map LevelNode.minKey).Pairwise (· < ·) := by
  rw [List.pairwise_map, List.pairwise_iff_getElem]
  intro i j hi hj hij
  obtain ⟨es, vs, hes, hnode⟩ := h.getElem? (List.getElem?_eq_getElem hi)
  obtain ⟨es', vs', hes', hnode'⟩ := h.getElem? (List.getElem?_eq_getElem hj)
  obtain ⟨e, he, hkey⟩ := hnode.exists_minKey
  obtain ⟨e', he', hkey'⟩ := hnode'.exists_minKey
  rw [← hkey, ← hkey']
  exact lt_of_getElem? hasc hij hes hes' he he'

theorem Level.between {group : List LevelNode} (h : Level fetch d (node :: group) ess vss)
    (hasc : Ascending ess.flatten) {i : Nat} (hes : ess[i]? = some es) {e : NsEntry} (he : e ∈ es) :
    Between (group.map LevelNode.minKey) i e.1 := by
  intro j s hj
  rw [List.getElem?_map] at hj
  obtain ⟨child, hchild, rfl⟩ := Option.map_eq_some_iff.mp hj
  obtain ⟨es', vs', hes', htree⟩ := h.getElem? (i := j + 1) hchild
  obtain ⟨e', he', hkey⟩ := htree.exists_minKey
  refine ⟨fun hji => ?_, fun hij => ?_⟩
  · rcases Nat.eq_or_lt_of_le (Nat.succ_le_of_lt hji) with heq | hlt
    · -- the separator in front of the child is its own smallest key
      rw [← heq] at hes
      obtain rfl := Option.some.inj (hes.symm.trans hes')
      refine htree.minKey_le ?_ he
      exact (List.pairwise_flatten.mp hasc).1 es (List.mem_of_getElem? hes)
    · rw [← hkey]
      exact le_of_lt (lt_of_getElem? hasc hlt hes' hes he' he)
  · rw [← hkey]
    exact lt_of_getElem? hasc (Nat.lt_succ_of_le hij) hes hes' he he'

theorem Level.branch {group : List LevelNode} {page : UInt64}
    (hfetch : ∀ p n, fetch p = some n → fetch' p = some n)
    (h : Level fetch d (node :: group) ess vss) (hasc : Ascending ess.flatten)
    (hpage : fetch' page = some (.branch (group.map LevelNode.minKey)
      ((node :: group).map LevelNode.page))) :
    Subtree fetch' (d + 1) ⟨page, node.minKey⟩ ess.flatten (page :: vss.flatten) := by
  have h' := h.mono hfetch
  refine ⟨?_, ?_, ?_, ?_⟩
  · rw [entries_branch hpage, h'.mapM_entries]
    rfl
  · rw [visited_branch hpage, h'.mapM_visited]
    rfl
  · change Separated fetch' (d + 1) page
    rw [Separated, hpage]
    intro i c hc
    rw [List.getElem?_map] at hc
    obtain ⟨child, hchild, rfl⟩ := Option.map_eq_some_iff.mp hc
    obtain ⟨es, vs, hes, htree⟩ := h'.getElem? hchild
    refine ⟨htree.separated, fun es' hes' e he => ?_⟩
    obtain rfl := Option.some.inj (htree.entries.symm.trans hes')
    exact h'.between hasc hes he
  · cases h with
    | @cons _ _ es _ _ _ hnode _ =>
      have hmin := hnode.minKey
      rw [List.flatten_cons]
      cases es with
      | nil => cases hmin
      | cons e₀ es => exact hmin

end Levels

/-! ### The writer's loops -/

/-- A builder that has written the given pages behind an empty header page. -/
structure Built (descSize : Nat) (b : NsBuilder) (pages : List Bytes) : Prop where
  width : b.descSize = descSize
  image : b.image = List.replicate nsPageSize 0 ++ pages.flatten
  pageLength : ∀ p ∈ pages, p.length = nsPageSize
  next : b.next.toNat = pages.length + 1

/-- The pages below the nodes of a level are different, and already written. -/
structure Fresh (pages : List Bytes) (vs : List UInt64) : Prop where
  nodup : vs.Nodup
  written : ∀ v ∈ vs, v.toNat ≤ pages.length

section Loops

variable {descSize : Nat} {b : NsBuilder} {pages : List Bytes}

theorem Built.length_image (h : Built descSize b pages) : b.image.length = pageBase b.next := by
  rw [h.image, List.length_append, List.length_replicate, length_flatten_of_forall h.pageLength,
    pageBase, h.next, Nat.succ_mul, Nat.add_comm]

theorem Built.concat (h : Built descSize b pages) {page : Bytes} (hpage : page.length = nsPageSize)
    (hroom : pages.length + 2 < 2 ^ 64) :
    Built descSize { b with next := b.next + 1, image := b.image ++ page } (pages ++ [page]) := by
  refine ⟨h.width, ?_, ?_, ?_⟩
  · change b.image ++ page = _
    rw [h.image, List.flatten_append, List.flatten_singleton, List.append_assoc]
  · intro p hp
    rcases List.mem_append.mp hp with hp | hp
    · exact h.pageLength p hp
    · rw [List.mem_singleton.mp hp]
      exact hpage
  · change (b.next + 1).toNat = _
    rw [UInt64.toNat_add, h.next, List.length_append, List.length_singleton]
    exact Nat.mod_eq_of_lt hroom

theorem Built.fresh (h : Built descSize b pages) {vs₁ vs₂ : List UInt64}
    (hvs : Fresh pages (vs₁ ++ vs₂)) (page : Bytes) :
    Fresh (pages ++ [page]) (vs₁ ++ b.next :: vs₂) := by
  have hnew : ∀ v ∈ vs₁ ++ vs₂, v ≠ b.next := by
    rintro v hv rfl
    have := hvs.written b.next hv
    rw [h.next] at this
    omega
  constructor
  · rw [List.perm_middle.nodup_iff, List.nodup_cons]
    exact ⟨fun hmem => hnew b.next hmem rfl, hvs.nodup⟩
  · intro v hv
    rw [List.length_append, List.length_singleton]
    rcases List.mem_append.mp hv with hv | hv
    · exact Nat.le_succ_of_le (hvs.written v (List.mem_append_left _ hv))
    · rcases List.mem_cons.mp hv with rfl | hv
      · rw [h.next]
      · exact Nat.le_succ_of_le (hvs.written v (List.mem_append_right _ hv))

variable {ess : List (List NsEntry)}

theorem packLeaves_spec (hD : 8 ≤ descSize) (leaves : List (List NsEntry))
    (hruns : ∀ es ∈ leaves, es ≠ [] ∧ es.length ≤ nsOrder descSize ∧
      (∀ e ∈ es, e.2.length = descSize) ∧ Ascending es) {level : List LevelNode}
    {vss : List (List UInt64)} (hbuilt : Built descSize b pages)
    (hlevel : Level (fetchPages descSize pages) 1 level ess vss)
    (hfresh : Fresh pages vss.flatten) (hroom : pages.length + leaves.length + 1 < 2 ^ 64) :
    ∃ b' pages' level' vss', packLeaves leaves (b, level) = .ok (b', level') ∧
      Built descSize b' pages' ∧ pages'.length = pages.length + leaves.length ∧
      Level (fetchPages descSize pages') 1 level' (ess ++ leaves) vss' ∧
      Fresh pages' vss'.flatten := by
  induction leaves generalizing b pages level ess vss with
  | nil => exact ⟨b, pages, level, vss, rfl, hbuilt, rfl, by rwa [List.append_nil], hfresh⟩
  | cons es leaves ih =>
    obtain ⟨hne, hcount, hwidth, hasc⟩ := hruns es List.mem_cons_self
    cases es with
    | nil => exact absurd rfl hne
    | cons e es =>
      rw [List.length_cons] at hroom
      have hfit := (payload_le hD hcount).1
      have hwrite : b.alloc.2.writeLeaf b.alloc.1 (e :: es) = _ :=
        NsBuilder.writeLeaf_alloc hbuilt.length_image (by rw [hbuilt.width]; exact hfit)
          (by rw [hbuilt.width]; exact hwidth)
      have hlen : (leafPage (e :: es)).length = nsPageSize := by
        refine length_nodePage ?_
        rw [List.length_append, length_words, List.length_map,
          length_flatten_of_forall (List.forall_mem_map.mpr hwidth), List.length_map]
        omega
      have hpage : fetchPages descSize (pages ++ [leafPage (e :: es)]) b.next =
          some (.leaf (e :: es)) := by
        rw [fetchPages_concat hbuilt.next, pageNode_leafPage hD hcount hwidth hasc]
      have htree : Subtree (fetchPages descSize (pages ++ [leafPage (e :: es)])) 1
          ⟨b.next, e.1⟩ (e :: es) [b.next] :=
        ⟨entries_leaf hpage 0, visited_leaf hpage 0, by rw [Separated, hpage]; trivial, rfl⟩
      obtain ⟨b', pages', level', vss', hpack, hbuilt', hlen', hlevel', hfresh'⟩ :=
        ih (fun r hr => hruns r (List.mem_cons_of_mem _ hr)) (hbuilt.concat hlen (by omega))
          ((hlevel.mono fun _ _ => fetchPages_append).append (.cons htree .nil))
          (by
            rw [List.flatten_append, List.flatten_singleton]
            exact hbuilt.fresh (by rwa [List.append_nil]) _)
          (by rw [List.length_append, List.length_singleton]; omega)
      refine ⟨b', pages', level', vss', ?_, hbuilt', ?_, ?_, hfresh'⟩
      · rw [packLeaves, hwrite]
        exact hpack
      · rw [hlen', List.length_append, List.length_singleton, List.length_cons]
        omega
      · rwa [List.append_assoc, List.singleton_append] at hlevel'

theorem packGroups_spec (hD : 8 ≤ descSize) {d : Nat} (groups : List (List LevelNode))
    (hgroups : ∀ g ∈ groups, g ≠ [] ∧ g.length ≤ nsOrder descSize + 1) {parent : List LevelNode}
    {pess : List (List NsEntry)} {pvss vss : List (List UInt64)} (hbuilt : Built descSize b pages)
    (hparent : Level (fetchPages descSize pages) (d + 1) parent pess pvss)
    (hlevel : Level (fetchPages descSize pages) d groups.flatten ess vss)
    (hasc : Ascending ess.flatten) (hfresh : Fresh pages (pvss.flatten ++ vss.flatten))
    (hroom : pages.length + groups.length + 1 < 2 ^ 64) :
    ∃ b' pages' parent' pess' pvss', packGroups groups (b, parent) = .ok (b', parent') ∧
      Built descSize b' pages' ∧ pages'.length = pages.length + groups.length ∧
      parent'.length = parent.length + groups.length ∧
      Level (fetchPages descSize pages') (d + 1) parent' pess' pvss' ∧
      pess'.flatten = pess.flatten ++ ess.flatten ∧ Fresh pages' pvss'.flatten := by
  induction groups generalizing b pages parent pess pvss ess vss with
  | nil =>
    cases hlevel
    rw [List.flatten_nil, List.append_nil] at hfresh ⊢
    exact ⟨b, pages, parent, pess, pvss, rfl, hbuilt, rfl, rfl, hparent, rfl, hfresh⟩
  | cons group groups ih =>
    obtain ⟨hne, hcount⟩ := hgroups group List.mem_cons_self
    cases group with
    | nil => exact absurd rfl hne
    | cons node group =>
      rw [List.length_cons] at hcount hroom
      rw [List.flatten_cons] at hlevel
      obtain ⟨ess₁, ess₂, vss₁, vss₂, rfl, rfl, hgroup, hrest⟩ := hlevel.split
      rw [List.flatten_append] at hasc hfresh
      obtain ⟨hasc₁, hasc₂, -⟩ := List.pairwise_append.mp hasc
      have hkeys : (group.map LevelNode.minKey).Pairwise (· < ·) :=
        (List.pairwise_cons.mp (hgroup.pairwise_minKey hasc₁)).2
      have hkeyCount : (group.map LevelNode.minKey).length ≤ nsOrder descSize := by
        rw [List.length_map]
        omega
      have hchildCount : ((node :: group).map LevelNode.page).length =
          (group.map LevelNode.minKey).length + 1 := by
        rw [List.length_map, List.length_map, List.length_cons]
      have hfit := (payload_le hD hkeyCount).2
      have hwrite : b.alloc.2.writeInternal b.alloc.1 (group.map LevelNode.minKey)
          ((node :: group).map LevelNode.page) = _ :=
        NsBuilder.writeInternal_alloc hbuilt.length_image (by rw [hchildCount]; omega)
      have hlen : (internalPage (group.map LevelNode.minKey)
          ((node :: group).map LevelNode.page)).length = nsPageSize := by
        refine length_nodePage ?_
        rw [List.length_append, length_words, length_words, hchildCount]
        omega
      generalize hbytes : internalPage (group.map LevelNode.minKey)
        ((node :: group).map LevelNode.page) = bytes at hwrite hlen
      have hpage : fetchPages descSize (pages ++ [bytes]) b.next =
          some (.branch (group.map LevelNode.minKey) ((node :: group).map LevelNode.page)) := by
        rw [fetchPages_concat hbuilt.next, ← hbytes,
          pageNode_internalPage hD hkeyCount hchildCount hkeys]
      have htree := hgroup.branch (fun _ _ => fetchPages_append) hasc₁ hpage
      obtain ⟨b', pages', parent', pess', pvss', hpack, hbuilt', hlen', hcount', hlevel', hess',
          hfresh'⟩ :=
        ih (fun g hg => hgroups g (List.mem_cons_of_mem _ hg)) (hbuilt.concat hlen (by omega))
          ((hparent.mono fun _ _ => fetchPages_append).append (.cons htree .nil))
          (hrest.mono fun _ _ => fetchPages_append) hasc₂
          (by
            rw [List.flatten_append, List.flatten_singleton, List.append_assoc, List.cons_append]
            exact hbuilt.fresh hfresh _)
          (by rw [List.length_append, List.length_singleton]; omega)
      refine ⟨b', pages', parent', pess', pvss', ?_, hbuilt', ?_, ?_, hlevel', ?_, hfresh'⟩
      · rw [packGroups, hwrite]
        exact hpack
      · rw [hlen', List.length_append, List.length_singleton, List.length_cons]
        omega
      · rw [hcount', List.length_append, List.length_singleton, List.length_cons]
        omega
      · rw [hess', List.flatten_append, List.flatten_singleton, List.flatten_append,
          List.append_assoc]

/-- The pages it takes to build the levels above a level of `n` nodes. -/
def pagesAbove (order n : Nat) : Nat :=
  if order = 0 ∨ n ≤ 1 then 0
  else (n + order) / (order + 1) + pagesAbove order ((n + order) / (order + 1))
termination_by n
decreasing_by
  rename_i h
  rw [not_or, not_le] at h
  refine Nat.div_lt_of_lt_mul ?_
  have := Nat.mul_le_mul_left order h.2
  rw [Nat.succ_mul]
  omega

theorem two_mul_parents_le {order n : Nat} (horder : 2 ≤ order) (hn : 1 < n) :
    (n + order) / (order + 1) + (n + order) / (order + 1) ≤ n := by
  have hmul := Nat.div_mul_le_self (n + order) (order + 1)
  generalize (n + order) / (order + 1) = g at *
  rcases Nat.lt_or_ge g 2 with hg | hg
  · omega
  · obtain ⟨g', rfl⟩ := Nat.exists_eq_add_of_le' hg
    have hgrow := Nat.mul_le_mul_left (g' + 1) horder
    have hexpand : (g' + 2) * (order + 1) = (g' + 1) * order + order + g' + 2 := by ring
    omega

/-- What is left of a level: the writer, the pages, and the tree of the last node. -/
def Packed (descSize : Nat) (b : NsBuilder) (pages : List Bytes) (level : List LevelNode)
    (depth : Nat) (es : List NsEntry) : Prop :=
  ∃ b' pages' node d vs, packLevels (nsOrder descSize) b level = .ok (b', [node]) ∧
    Built descSize b' pages' ∧
    pages'.length = pages.length + pagesAbove (nsOrder descSize) level.length ∧ d ≤ depth ∧
    Subtree (fetchPages descSize pages') d node es vs ∧ vs.Nodup

theorem packed_of_length_le {d depth : Nat} (hd : d ≤ depth) {level : List LevelNode}
    {vss : List (List UInt64)} (hle : level.length ≤ 1) (hne : level ≠ [])
    (hbuilt : Built descSize b pages) (hlevel : Level (fetchPages descSize pages) d level ess vss)
    (hfresh : Fresh pages vss.flatten) : Packed descSize b pages level depth ess.flatten := by
  rw [Packed, packLevels, if_pos (.inr hle), pagesAbove, if_pos (.inr hle)]
  cases hlevel with
  | nil => exact absurd rfl hne
  | @cons node nodes es ess vs vss htree hrest =>
    rw [List.length_cons] at hle
    obtain rfl := List.eq_nil_of_length_eq_zero (Nat.le_zero.mp (Nat.le_of_succ_le_succ hle))
    cases hrest
    rw [List.flatten_singleton] at hfresh ⊢
    exact ⟨b, pages, node, d, vs, rfl, hbuilt, rfl, hd, htree, hfresh.nodup⟩

theorem packLevels_spec (hD : 8 ≤ descSize) (horder : 2 ≤ nsOrder descSize) (k : Nat) {d : Nat}
    {level : List LevelNode} {vss : List (List UInt64)}
    (hlen : level.length ≤ (nsOrder descSize + 1) ^ k) (hne : level ≠ [])
    (hbuilt : Built descSize b pages) (hlevel : Level (fetchPages descSize pages) d level ess vss)
    (hasc : Ascending ess.flatten) (hfresh : Fresh pages vss.flatten)
    (hroom : pages.length + level.length + 1 < 2 ^ 64) :
    Packed descSize b pages level (d + k) ess.flatten := by
  induction k generalizing b pages level ess vss d with
  | zero => exact packed_of_length_le (Nat.le_refl _) hlen hne hbuilt hlevel hfresh
  | succ k ih =>
    by_cases hle : level.length ≤ 1
    · exact packed_of_length_le (Nat.le_add_right _ _) hle hne hbuilt hlevel hfresh
    have hrun : 0 < nsOrder descSize + 1 := Nat.succ_pos _
    have hgroups : (runs (nsOrder descSize + 1) level).length =
        (level.length + nsOrder descSize) / (nsOrder descSize + 1) := length_runs hrun level
    have hhalf := two_mul_parents_le horder (not_le.mp hle)
    obtain ⟨b₁, pages₁, parent, pess, pvss, hpack, hbuilt₁, hlen₁, hcount, hparent, hess, hfresh₁⟩ :=
      packGroups_spec hD (runs (nsOrder descSize + 1) level)
        (fun g hg => ⟨ne_nil_of_mem_runs hrun level g hg, length_le_of_mem_runs hrun level g hg⟩)
        hbuilt (.nil (d := d + 1)) (by rwa [flatten_runs hrun]) hasc hfresh
        (by rw [hgroups]; omega)
    rw [List.flatten_nil, List.nil_append] at hess
    rw [List.length_nil, Nat.zero_add, hgroups] at hcount
    rw [hgroups] at hlen₁
    have hfew : parent.length ≤ (nsOrder descSize + 1) ^ k := by
      rw [hcount]
      refine Nat.le_of_lt_succ (Nat.div_lt_of_lt_mul ?_)
      rw [pow_succ'] at hlen
      rw [Nat.mul_succ]
      omega
    have hmany : parent ≠ [] := by
      rintro rfl
      rw [List.length_nil] at hcount
      have := (Nat.div_eq_zero_iff_lt hrun).mp hcount.symm
      omega
    obtain ⟨b', pages', node, d', vs, hrest, hbuilt', hlen', hd', htree, hnodup⟩ :=
      ih hfew hmany hbuilt₁ hparent (by rwa [hess]) hfresh₁ (by omega)
    refine ⟨b', pages', node, d', vs, ?_, hbuilt', ?_, by omega, by rwa [hess] at htree, hnodup⟩
    · rw [packLevels, if_neg (by omega)]
      split
      · next e heq =>
        rw [hpack] at heq
        cases heq
      · next heq =>
        rw [hpack] at heq
        cases heq
        exact hrest
    · rw [hlen', hlen₁, hcount]
      conv_rhs => rw [pagesAbove, if_neg (by omega)]
      omega

end Loops

/-! ### The image -/

/-- The batches the writer accepts. -/
structure Loadable (descSize : Nat) (es : List NsEntry) : Prop where
  width : ∀ e ∈ es, e.2.length = descSize
  ascending : Ascending es

theorem checkBatch_ok {descSize : Nat} {es : List NsEntry} (h : Loadable descSize es) (i : Nat)
    {previous : Option UInt64} (hprevious : ∀ k ∈ previous, ∀ e ∈ es, k < e.1) :
    checkBatch descSize i previous es = .ok () := by
  induction es generalizing i previous with
  | nil => rfl
  | cons e es ih =>
    obtain ⟨key, desc⟩ := e
    have hrest : Loadable descSize es :=
      ⟨fun e he => h.width e (List.mem_cons_of_mem _ he), (List.pairwise_cons.mp h.ascending).2⟩
    have hnext : checkBatch descSize (i + 1) (some key) es = .ok () :=
      ih hrest (i + 1) fun k hk e he => by
        cases hk
        exact (List.pairwise_cons.mp h.ascending).1 e he
    have hwidth : desc.length = descSize := h.width (key, desc) List.mem_cons_self
    rw [checkBatch.eq_def]
    dsimp only
    rw [if_neg (not_not.mpr hwidth)]
    cases previous with
    | none => exact hnext
    | some k =>
      have hlt : k < key := hprevious k rfl (key, desc) List.mem_cons_self
      dsimp only
      rw [if_neg (not_le.mpr hlt)]
      exact hnext

theorem Ascending.length_le {es : List NsEntry} (h : Ascending es) : es.length ≤ 2 ^ 64 := by
  have hnodup : (es.map fun e => e.1.toFin).Nodup := by
    rw [List.nodup_iff_pairwise_ne, List.pairwise_map]
    exact h.imp fun hlt heq => absurd (UInt64.toFin_inj.mp heq) (ne_of_lt hlt)
  have := hnodup.length_le_card
  rwa [List.length_map, Fintype.card_fin] at this

/-- The pages of a namespace with `n` entries, the header page apart. -/
def pagesFor (descSize n : Nat) : Nat :=
  let leaves := (n + nsOrder descSize - 1) / nsOrder descSize
  leaves + pagesAbove (nsOrder descSize) leaves

/-- Pages that hold a tree of the given entries, or nothing. -/
structure Layout (descSize : Nat) (es : List NsEntry) (root commit next : UInt64)
    (pages : List Bytes) : Prop where
  pageLength : ∀ p ∈ pages, p.length = nsPageSize
  next : next.toNat = pages.length + 1
  ascending : Ascending es
  tree : commit = 0 ∧ es = [] ∨ commit ≠ 0 ∧ root ≠ 0 ∧ ∃ minKey vs,
    Subtree (fetchPages descSize pages) nsMaxDepth ⟨root, minKey⟩ es vs ∧ vs.Nodup

section Layout

variable {descSize : Nat} {es : List NsEntry} {root commit next : UInt64} {pages : List Bytes}

theorem Layout.read (h : Layout descSize es root commit next pages) (hD : 8 ≤ descSize)
    (flags : UInt8) {rest tail : Bytes} (hrest : nsHeaderTotal + rest.length = nsPageSize)
    (htail : tail.length % nsPageSize = 0) :
    nsCollect (headerBytes root commit flags next ++ (rest ++ (pages.flatten ++ tail))) descSize =
        .ok es ∧
      Searchable (headerBytes root commit flags next ++ (rest ++ (pages.flatten ++ tail)))
        descSize es := by
  have hlen : nsHeaderTotal + (rest ++ (pages.flatten ++ tail)).length =
      (pages.length + 1) * nsPageSize + tail.length := by
    rw [List.length_append, List.length_append, length_flatten_of_forall h.pageLength, Nat.succ_mul]
    omega
  have hheader : nsReadHeader
      (headerBytes root commit flags next ++ (rest ++ (pages.flatten ++ tail))) =
      .ok ⟨if commit = 0 then 0 else root, commit, flags, next⟩ := by
    refine nsReadHeader_headerBytes ?_ ?_
    · rw [hlen, Nat.add_comm, Nat.add_mul_mod_self_right, htail]
    · rw [hlen, h.next, Nat.le_div_iff_mul_le (by decide)]
      exact Nat.le_add_right _ _
  rcases h.tree with ⟨hcommit, hes⟩ | ⟨hcommit, hroot, minKey, vs, htree, hnodup⟩
  · rw [if_pos hcommit] at hheader
    refine ⟨(nsCollect_ok_iff hD).mpr ⟨_, hheader, .inl ⟨rfl, hes⟩⟩, fun key => ⟨0, ?_⟩⟩
    rw [nimLookup_of_root_eq_zero hheader rfl, hes]
    rfl
  · rw [if_neg hcommit] at hheader
    have hfetch : nsFetch (headerBytes root commit flags next ++ (rest ++ (pages.flatten ++ tail)))
        next descSize = fetchPages descSize pages := by
      funext page
      rw [← List.append_assoc, ← List.append_assoc]
      refine nsFetch_eq_fetchPages ?_ h.pageLength h.next page
      rw [List.length_append, length_headerBytes, hrest]
    refine ⟨(nsCollect_ok_iff hD).mpr ⟨_, hheader, .inr ⟨hroot, h.ascending, vs, ?_, ?_, hnodup⟩⟩,
      searchable_of_separated hD hheader hroot ?_ h.ascending ?_⟩
    · rw [hfetch]
      exact htree.entries
    · rw [hfetch]
      exact htree.visited
    · rw [hfetch]
      exact htree.entries
    · rw [hfetch]
      exact htree.separated

end Layout

theorem putHeader_eq (root commit : UInt64) (flags : UInt8) (next : UInt64) (after : Bytes) :
    (do
      let image ← put (List.replicate nsPageSize 0 ++ after) 0 nsMagic
      let image ← put image nsOffRoot0 (le64 root)
      let image ← put image nsOffRoot1 (le64 0)
      let image ← put image nsOffCommit0 (le64 commit)
      let image ← put image nsOffCommit1 (le64 0)
      let image ← put image nsOffFlags [flags]
      let image ← put image nsOffFreeHead (le64 0)
      let image ← put image nsOffNextFree (le64 next)
      put image nsOffPageCount (le64 next) : Except (Fault NsError) Bytes) =
      .ok (headerBytes root commit flags next ++
        (List.replicate (nsPageSize - nsHeaderTotal) 0 ++ after)) := by
  have hfields : [nsMagic, le64 root, le64 0, le64 commit, le64 0, [flags], le64 0, le64 next,
      le64 next].flatten = headerBytes root commit flags next := by
    simp [headerBytes]
  change putFields (List.replicate nsPageSize 0 ++ after) 0 [nsMagic, le64 root, le64 0,
    le64 commit, le64 0, [flags], le64 0, le64 next, le64 next] = _
  rw [← List.nil_append (List.replicate nsPageSize 0 ++ after),
    putFields_blank _ List.length_nil, hfields, length_headerBytes]
  · rfl
  · rw [hfields, length_headerBytes]
    decide

theorem nsBulkLoad_spec {descSize : Nat} (hD : 8 ≤ descSize) (horder : 170 ≤ nsOrder descSize)
    {es : List NsEntry} (h : Loadable descSize es) (flags : UInt8) :
    ∃ root commit next pages, nsBulkLoad es descSize flags =
        .ok (headerBytes root commit flags next ++
          (List.replicate (nsPageSize - nsHeaderTotal) 0 ++ pages.flatten)) ∧
      Layout descSize es root commit next pages ∧ pages.length = pagesFor descSize es.length := by
  have hpos : 0 < nsOrder descSize := by omega
  have hleaves := length_runs hpos es
  have hfew : (runs (nsOrder descSize) es).length ≤ 2 ^ 60 := by
    rw [hleaves]
    have hmany := h.ascending.length_le
    refine Nat.le_of_lt_succ (Nat.div_lt_of_lt_mul ?_)
    have := Nat.mul_le_mul_right (2 ^ 60) horder
    rw [Nat.mul_succ]
    omega
  have hflatten := flatten_runs hpos es
  have hruns : ∀ r ∈ runs (nsOrder descSize) es, r ≠ [] ∧ r.length ≤ nsOrder descSize ∧
      (∀ e ∈ r, e.2.length = descSize) ∧ Ascending r := by
    intro r hr
    refine ⟨ne_nil_of_mem_runs hpos es r hr, length_le_of_mem_runs hpos es r hr, fun e he => ?_, ?_⟩
    · refine h.width e ?_
      rw [← hflatten]
      exact List.mem_flatten.mpr ⟨r, hr, he⟩
    · have hasc := h.ascending
      rw [← hflatten, Ascending, List.pairwise_flatten] at hasc
      exact hasc.1 r hr
  have hempty : Built descSize ⟨List.replicate nsPageSize 0, 1, descSize⟩ [] :=
    ⟨rfl, by rw [List.flatten_nil, List.append_nil], List.forall_mem_nil _, rfl⟩
  obtain ⟨b, pages, level, vss, hpack, hbuilt, hlen, hlevel, hfresh⟩ :=
    packLeaves_spec hD (runs (nsOrder descSize) es) hruns hempty .nil
      ⟨List.nodup_nil, List.forall_mem_nil _⟩ (by rw [List.length_nil]; omega)
  rw [List.length_nil, Nat.zero_add] at hlen
  rw [List.nil_append] at hlevel
  have hcount : level.length = pages.length := by rw [← hlevel.length_eq, hlen]
  have hcheck : liftError (checkBatch descSize 0 none es) = .ok () := by
    rw [checkBatch_ok h 0 fun k hk => by cases hk]
    rfl
  by_cases hes : es = []
  · -- no entries, no leaves, no root
    rw [hes, runs_nil, List.length_nil] at hlen
    have hnone : level = [] := List.eq_nil_of_length_eq_zero (hcount.trans hlen)
    have hpages : pages = [] := List.eq_nil_of_length_eq_zero hlen
    refine ⟨0, 0, b.next, pages, ?_, ⟨hbuilt.pageLength, hbuilt.next, h.ascending, .inl ⟨rfl, hes⟩⟩,
      ?_⟩
    · rw [← putHeader_eq, ← hbuilt.image, nsBulkLoad, hcheck]
      dsimp only [bind, Except.bind]
      rw [hpack, hnone]
      dsimp only
      rw [packLevels, if_pos (.inr (Nat.zero_le _))]
      rfl
    · rw [hes, hpages, pagesFor, List.length_nil, List.length_nil, Nat.zero_add, Nat.div_eq_of_lt (by omega),
        pagesAbove, if_pos (.inr (Nat.zero_le _))]
  · have hne : level ≠ [] := by
      rintro rfl
      rw [List.length_nil, hlen, runs_of_ne_nil hpos hes, List.length_cons] at hcount
      omega
    have hshallow : level.length ≤ (nsOrder descSize + 1) ^ 15 := by
      have hbig : 171 ^ 15 ≤ (nsOrder descSize + 1) ^ 15 := Nat.pow_le_pow_left (by omega) 15
      refine le_trans ?_ hbig
      rw [hcount, hlen]
      exact le_trans hfew (by decide)
    obtain ⟨b', pages', node, d, vs, hlevels, hbuilt', hlen', hd, htree, hnodup⟩ :=
      packLevels_spec hD (by omega) 15 hshallow hne hbuilt hlevel (by rw [hflatten]; exact h.ascending)
        hfresh (by omega)
    rw [hflatten] at htree
    refine ⟨node.page, 1, b'.next, pages', ?_, ⟨hbuilt'.pageLength, hbuilt'.next, h.ascending,
      .inr ⟨by decide, ?_, node.minKey, vs, htree.mono (fun _ _ h => h) hd, hnodup⟩⟩, ?_⟩
    · rw [← putHeader_eq, ← hbuilt'.image, nsBulkLoad, hcheck]
      dsimp only [bind, Except.bind]
      rw [hpack]
      dsimp only
      rw [hlevels]
    · intro hzero
      obtain ⟨n, hn⟩ := fetch_of_entries htree.entries
      rw [hzero] at hn
      cases hn
    · rw [hlen', hcount, hlen, hleaves, pagesFor]

theorem nsOrder_ge {descSize : Nat}
    (hD : descSize = nsDescSizeTypeA ∨ descSize = nsDescSizeTypeB) :
    8 ≤ descSize ∧ 170 ≤ nsOrder descSize := by
  rcases hD with rfl | rfl
  · decide
  · decide

/-- A bulk load of ascending entries succeeds. The enumerating reader returns the entries, and the
producer's lookup finds each of them and nothing else. -/
theorem nsBulkLoad_searchable {descSize : Nat}
    (hD : descSize = nsDescSizeTypeA ∨ descSize = nsDescSizeTypeB) {es : List NsEntry}
    (hwidth : ∀ e ∈ es, e.2.length = descSize) (hasc : Ascending es) (flags : UInt8) :
    ∃ image, nsBulkLoad es descSize flags = .ok image ∧ nsCollect image descSize = .ok es ∧
      (∀ e ∈ es, ∃ rounds, nimLookup rounds image descSize e.1 = some (.ok e.2)) ∧
      ∀ key, (∀ e ∈ es, e.1 ≠ key) →
        ∃ rounds, nimLookup rounds image descSize key = some (.error (.error .keyNotFound)) := by
  obtain ⟨hwide, horder⟩ := nsOrder_ge hD
  obtain ⟨root, commit, next, pages, hload, hlayout, -⟩ :=
    nsBulkLoad_spec hwide horder ⟨hwidth, hasc⟩ flags
  have hrest : nsHeaderTotal +
      (List.replicate (nsPageSize - nsHeaderTotal) (0 : UInt8)).length = nsPageSize := by
    rw [List.length_replicate]
    decide
  have htail : ([] : Bytes).length % nsPageSize = 0 := rfl
  obtain ⟨hcollect, hsearch⟩ := hlayout.read hwide flags hrest htail
  rw [List.append_nil] at hcollect hsearch
  refine ⟨_, hload, hcollect, fun e he => ?_, fun key hkey => ?_⟩
  · obtain ⟨rounds, hrounds⟩ := hsearch e.1
    rw [find?_key hasc he] at hrounds
    exact ⟨rounds, hrounds⟩
  · obtain ⟨rounds, hrounds⟩ := hsearch key
    rw [List.find?_eq_none.mpr fun e he h => hkey e he (of_decide_eq_true h)] at hrounds
    exact ⟨rounds, hrounds⟩

/-- Entries with eight-byte descriptors, more than one leaf takes. -/
def manyEntries : List NsEntry :=
  (List.range 300).map fun i => (UInt64.ofNat (2 * i), List.replicate 8 (UInt8.ofNat i))

theorem nsBulkLoad_searchable_many :
    nsOrder nsDescSizeTypeA < manyEntries.length ∧
      ∃ image, nsBulkLoad manyEntries nsDescSizeTypeA 0 = .ok image ∧
        nsCollect image nsDescSizeTypeA = .ok manyEntries ∧
        (∃ rounds, nimLookup rounds image nsDescSizeTypeA 598 = some (.ok (List.replicate 8 43))) ∧
        ∃ rounds, nimLookup rounds image nsDescSizeTypeA 7 =
          some (.error (.error .keyNotFound)) := by
  have hasc : Ascending manyEntries := by
    have : IsTrans NsEntry fun a b => a.1 < b.1 := ⟨fun _ _ _ => UInt64.lt_trans⟩
    rw [Ascending, ← List.isChain_iff_pairwise]
    decide +kernel
  obtain ⟨image, hload, hcollect, hfind, hmiss⟩ :=
    nsBulkLoad_searchable (.inl rfl) (by decide +kernel) hasc 0
  exact ⟨by decide +kernel, image, hload, hcollect,
    hfind (598, List.replicate 8 43) (by decide +kernel), hmiss 7 (by decide +kernel)⟩

end Wasmsnapshot
