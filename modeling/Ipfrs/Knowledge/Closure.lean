/-
Ipfrs.Knowledge.Closure — all that a head stands for is linked from it.

`Follows h h'` says that `h'` takes from `h` every block that a block of `h'` links
to. Then a trie whose root is in `h'` is stored in `h'`, with the blocks its leaves
name (`Hamt.Represents.follow`), and so is the graph under two roots
(`Refines.follow`) and under a head (`Committed.follow`).
-/
import Ipfrs.Knowledge.GraphTheorems
import Ipfrs.Knowledge.TieredTheorems

namespace Ipfrs.Knowledge

open Ipfrs.Core Ipfrs.Lib

/-- The links of a field are links of the map. -/
theorem mem_collectLinks_of_field {m : IpldMap} {k : String} {v : Ipld} {c : Cid}
    (hfield : Ipld.field m k = some v) (hc : c ∈ collectLinks v) : c ∈ collectLinks (.map m) := by
  refine mem_collectLinksMap.mpr ⟨(k, v), SortedAssoc.mem_of_get? hfield, ?_, hc⟩
  simp

section

variable [CidCrate]

/-- The blocks `h'` take from `h` all that they link to. -/
def Follows (h h' : List Block) : Prop :=
  ∀ b ∈ h', ∀ b' ∈ h, b'.cid ∈ blockLinks collectLinks b.data → b' ∈ h'

/-- The blocks of `h` under one of the CIDs are in `h'`. -/
def Takes (h h' : List Block) (cids : List Cid) : Prop := ∀ b ∈ h, b.cid ∈ cids → b ∈ h'

variable [CidCrate.Lawful] {h h' : List Block}

/-- What a value links to is taken with its block. -/
theorem Follows.takes (hf : Follows h h') {v : Ipld} (hv : v.Shaped Ipld.CborInt)
    (hsize : (ipldBlock v).data.length < 2 ^ 64) (hb : ipldBlock v ∈ h') :
    Takes h h' (collectLinks v) := by
  intro b' hb' hlink
  refine hf _ hb b' hb' ?_
  rw [blockLinks, fromDagCbor_ipldBlock hv hsize]
  exact hlink

/-! ## Tries -/

namespace Hamt

theorem takes_node (hf : Follows h h') {slots : Slots} (hb : nodeBlock slots ∈ h')
    (i : Fin width) : Takes h h' (collectLinks (slotToIpld (slots i))) := by
  intro b' hb' hlink
  refine hf _ hb b' hb' ?_
  rw [blockLinks, nodeBlock, ipldBlock, fromDagCbor_cborBytes (nodeIpld_wf slots)]
  have hfield : Ipld.field (SortedAssoc.ofEntries [("@type", .string "hamt"),
      ("slots", .list (List.ofFn (fun i => slotToIpld (slots i))))]) "slots"
      = some (.list (List.ofFn (fun i => slotToIpld (slots i)))) := by
    rw [field_ofEntries]
    rfl
  refine mem_collectLinks_of_field hfield (mem_collectLinksList.mpr ⟨_, ?_, hlink⟩)
  exact (List.mem_ofFn' _ _).mpr ⟨i, rfl⟩

/-- A slot whose links are taken is stored, with the blocks of its leaves. -/
theorem stored_of_takes (hf : Follows h h') {t : PureSlot} :
    Takes h h' (collectLinks (slotToIpld (slotOf t))) → Stored h t →
      Stored h' t ∧ ∀ e ∈ t.toList, Takes h h' [e.2] := by
  induction t with
  | empty =>
    intro _ _
    exact ⟨trivial, fun e he => by cases he⟩
  | leaf k v =>
    intro htakes _
    refine ⟨trivial, ?_⟩
    intro e he
    obtain rfl : e = (k, v) := List.mem_singleton.mp he
    intro b hb hcid
    refine htakes b hb (mem_collectLinks_of_field (k := "v") (v := .link v) ?_ hcid)
    rw [field_ofEntries]
    rfl
  | branch node ih =>
    rintro htakes ⟨hmem, hbelow⟩
    have hb : nodeBlock (slotsOf node) ∈ h' := htakes _ hmem (List.mem_singleton_self _)
    have hslots := fun i => ih i (takes_node hf hb i) (hbelow i)
    refine ⟨⟨hb, fun i => (hslots i).1⟩, ?_⟩
    intro e he
    obtain ⟨i, hi⟩ := Trie.mem_entries.mp he
    exact (hslots i).2 e hi

/-- A trie is taken with its root, and its values with it. -/
theorem Represents.follow (hf : Follows h h') {root : Cid} {m : EntityId → Option Cid}
    (hrep : Represents h root m) (hroot : Takes h h' [root]) :
    Represents h' root m ∧ ∀ k v, m k = some v → Takes h h' [v] := by
  obtain ⟨node, hok, ⟨hmem, hbelow⟩, rfl, hentries⟩ := hrep
  have hb : nodeBlock (slotsOf node) ∈ h' := hroot _ hmem (List.mem_singleton_self _)
  have hslots := fun i => stored_of_takes hf (takes_node hf hb i) (hbelow i)
  refine ⟨⟨node, hok, ⟨hb, fun i => (hslots i).1⟩, rfl, hentries⟩, ?_⟩
  intro k v hkv
  obtain ⟨i, hi⟩ := Trie.mem_entries.mp ((hentries k v).mpr hkv)
  exact (hslots i).2 (k, v) hi

end Hamt

/-! ## The graph -/

variable [RustText] {index edges : Cid} {a : GraphModel}

/-- The graph under two roots is taken with them. -/
theorem Refines.follow (hf : Follows h h') (hs : Sound h) (hr : Refines h index edges a)
    (hindex : Takes h h' [index]) (hedges : Takes h h' [edges]) : Refines h' index edges a := by
  obtain ⟨hindex', hentity⟩ := hr.index.follow hf hindex
  obtain ⟨hedges', hlist⟩ := hr.edges.follow hf hedges
  have hlist' : ∀ id, a.relations id ≠ [] → listBlock (a.relations id) ∈ h' := by
    intro id hne
    refine hlist id (listBlock (a.relations id)).cid (if_neg hne) _ (hr.list id hne) ?_
    exact List.mem_singleton_self _
  refine ⟨hindex', hedges', ?_, ?_, hlist'⟩
  · intro id spec hspec
    refine hentity id (entityBlock spec).cid ?_ _ (hr.entity id spec hspec)
      (List.mem_singleton_self _)
    rw [GraphModel.indexMap, hspec]
    rfl
  · intro id r hr'
    have hne : a.relations id ≠ [] := List.ne_nil_of_mem hr'
    refine hf.takes (linkList_shaped _) (hs.sized _ (hr.list id hne)) (hlist' id hne) _
      (hr.relation id r hr') ?_
    refine mem_collectLinksList.mpr ⟨.link (relationBlock r).cid, ?_, List.mem_singleton_self _⟩
    exact List.mem_map_of_mem (List.mem_map_of_mem hr')

namespace KnowledgeGraph

omit [RustText] in
/-- A head is taken with its index, and so are the two roots. -/
theorem Committed.follow (hf : Follows h h') (hs : Sound h) {head : Cid} {ix : VectorIndex}
    (hc : Committed h head index edges ix) (hhead : Takes h h' [head]) :
    Committed h' head index edges ix ∧ Takes h h' [index] ∧ Takes h h' [edges] := by
  obtain ⟨prev, rfl, hb, hv⟩ := hc
  have hb' := hhead _ hb (List.mem_singleton_self _)
  have htakes := hf.takes (headIpld_shaped _ _ _ _) (hs.sized _ hb) hb'
  -- each link of the head is a field of its map
  have hfield : ∀ (k : String) (c : Cid), Ipld.field (SortedAssoc.ofEntries
      ([("@type", .string "KnowledgeRoot"), ("version", .integer 1), ("index", .link index),
          ("edges", .link edges), ("vindex", .link (vindexBlock ix).cid)]
        ++ prev.toList.map (fun p => ("prev", .link p)))) k = some (.link c) →
      Takes h h' [c] := by
    intro k c hk b hbh hcid
    exact htakes b hbh (mem_collectLinks_of_field hk hcid)
  refine ⟨⟨prev, rfl, hb', ?_⟩, ?_, ?_⟩
  · refine hfield "vindex" _ ?_ _ hv (List.mem_singleton_self _)
    cases prev with
    | none => rw [field_ofEntries]; rfl
    | some p => rw [field_ofEntries]; rfl
  · refine hfield "index" _ ?_
    cases prev with
    | none => rw [field_ofEntries]; rfl
    | some p => rw [field_ofEntries]; rfl
  · refine hfield "edges" _ ?_
    cases prev with
    | none => rw [field_ofEntries]; rfl
    | some p => rw [field_ofEntries]; rfl

end KnowledgeGraph

end

end Ipfrs.Knowledge
