/-
Ipfrs.Knowledge.HamtTheorems — the HAMT is a finite map, in canonical form.

The pure counterpart of a stored trie is `Ipfrs.Lib.Trie` over nibbles. A pure
node determines the block it is stored as (`nodeBlock`), its children by CID, and
`NodeStored` says that this block and those of all nodes below are in a store's
history. `insertSlots_simulates` is the simulation: on a stored node `insert_slots`
returns the CID of what pure insertion gives, and that is stored again, blocks
written before included, so earlier roots stay readable.

All of it is under one assumption about a whole run: no two different blocks of
its final history share a CID.
-/
import Ipfrs.Knowledge.Hamt
import Ipfrs.Lib.Trie

namespace Ipfrs.Knowledge

open Ipfrs.Core Ipfrs.Lib
open BlockStore.Faithful (history)

namespace Hamt

/-! ## Nibbles -/

/-- A byte from its two halves. -/
def ofHalves (high low : Fin width) : UInt8 := UInt8.ofNat (high * 16 + low)

theorem ofHalves_nibbles (b : UInt8) :
    ofHalves (Fin.ofNat width (b >>> 4).toNat) (Fin.ofNat width (b &&& 0x0f).toNat) = b := by
  have h : ∀ k : Fin 256, ofHalves (Fin.ofNat width (UInt8.ofNat k >>> 4).toNat)
      (Fin.ofNat width (UInt8.ofNat k &&& 0x0f).toNat) = UInt8.ofNat k := by decide +kernel
  simpa using h ⟨b.toNat, b.toNat_lt⟩

/-- The 64 nibbles of a key determine it. -/
theorem eq_of_nibbles (x y : EntityId) (h : ∀ j < maxDepth, nibble x j = nibble y j) : x = y := by
  have hbytes : x.bytes = y.bytes := by
    refine List.ext_getElem (by rw [x.size_eq, y.size_eq]) (fun i hx hy => ?_)
    have hi : i < 32 := x.size_eq ▸ hx
    have hhigh := h (2 * i) (by unfold maxDepth; omega)
    have hlow := h (2 * i + 1) (by unfold maxDepth; omega)
    have h1 : 2 * i / 2 = i := by omega
    have h2 : (2 * i + 1) / 2 = i := by omega
    have h3 : (2 * i) % 2 = 0 := by omega
    have h4 : ¬ (2 * i + 1) % 2 = 0 := by omega
    simp only [nibble, h1, h2, h3, h4, if_true, if_false, List.getD_eq_getElem _ _ hx,
      List.getD_eq_getElem _ _ hy] at hhigh hlow
    rw [← ofHalves_nibbles x.bytes[i], hhigh, hlow, ofHalves_nibbles]
  cases x
  cases y
  simp_all

/-! ## The form of a node -/

theorem slotFromIpld_slotToIpld (s : Slot) : slotFromIpld (slotToIpld s) = .ok s := by
  cases s with
  | empty => rfl
  | branch c => rfl
  | leaf k v =>
    have hk := k.size_eq
    simp [slotToIpld, slotFromIpld, Ipld.field, SortedAssoc.ofEntries, SortedAssoc.get?_insert,
      toEntityId, hk]

theorem slotToIpld_wf (s : Slot) : (slotToIpld s).Wf Ipld.CborInt := by
  cases s with
  | empty => exact .null
  | branch c => exact .link c
  | leaf k v =>
    have hkeys : ∀ k ∈ ["k", "v"], (utf8 k).length < 2 ^ 64 := by decide
    refine .ofEntries (by simp) hkeys ?_
    intro e he
    simp only [List.mem_cons, List.not_mem_nil, or_false] at he
    rcases he with rfl | rfl
    · exact .bytes _ (by rw [k.size_eq]; decide)
    · exact .link _

/-- Every node is a value the codec represents. -/
theorem nodeIpld_wf (slots : Slots) : (nodeIpld slots).Wf Ipld.CborInt := by
  have hkeys : ∀ k ∈ ["@type", "slots"], (utf8 k).length < 2 ^ 64 := by decide
  refine .ofEntries (by simp) hkeys ?_
  intro e he
  simp only [List.mem_cons, List.not_mem_nil, or_false] at he
  rcases he with rfl | rfl
  · exact .string "hamt" (by decide)
  · refine .list _ (by simp) (fun v hv => ?_)
    obtain ⟨i, rfl⟩ := (List.mem_ofFn' _ _).mp hv
    exact slotToIpld_wf _

section

variable [CidCrate]

/-- The block a node is stored as. -/
def nodeBlock (slots : Slots) : Block := ipldBlock (nodeIpld slots)

variable {S : Type} [BlockStore S]

/-- A stored node loads. -/
theorem load_of_get [CidCrate.Lawful] {s : S} {cid : Cid} {slots : Slots}
    (h : BlockStore.get s cid = some (nodeBlock slots).data) : load s cid = .ok slots := by
  have hslots : collectOk slotFromIpld (List.ofFn (fun i => slotToIpld (slots i)))
      = .ok (List.ofFn slots) := by
    have hmap : List.ofFn (fun i => slotToIpld (slots i)) = (List.ofFn slots).map slotToIpld := by
      rw [List.map_ofFn]
      rfl
    rw [hmap]
    exact collectOk_map slotFromIpld_slotToIpld _
  have hfield : ∀ l : Ipld, Ipld.field (SortedAssoc.ofEntries [("@type", .string "hamt"),
      ("slots", l)]) "slots" = some l := by
    intro l
    simp [Ipld.field, SortedAssoc.ofEntries, SortedAssoc.get?_insert]
  unfold load
  rw [h]
  simp only [ok_bind, nodeBlock, ipldBlock, fromDagCbor_cborBytes (nodeIpld_wf slots), mapCore_ok]
  simp only [nodeIpld, hfield, List.length_ofFn, if_true, hslots, ok_bind]
  congr 1
  funext i
  have hi : i.val < (List.ofFn slots).length := by rw [List.length_ofFn]; exact i.isLt
  rw [List.getD_eq_getElem _ _ hi, List.getElem_ofFn]

end

/-! ## Stored tries -/

/-- The pure counterpart of a HAMT slot. -/
abbrev PureSlot := Trie width EntityId Cid

/-- The pure counterpart of a HAMT node. -/
abbrev PureNode := Fin width → PureSlot

/-! The entries a node holds itself and the nodes below it are taken from its slots
in order. -/

/-- The slots of a node, in order. -/
def slotList (node : PureNode) : List PureSlot := (List.finRange width).map node

def leafOf : PureSlot → Option (EntityId × Cid)
  | .leaf k v => some (k, v)
  | _ => none

def belowOf : PureSlot → Option PureNode
  | .branch node => some node
  | _ => none

/-- The number of nodes below a slot. -/
def slotSize : PureSlot → Nat
  | .empty => 0
  | .leaf _ _ => 0
  | .branch node => 1 + ((List.finRange width).map (fun i => slotSize (node i))).sum

def nodeSize (node : PureNode) : Nat :=
  1 + ((List.finRange width).map (fun i => slotSize (node i))).sum

theorem perm_leaves_below (ts : List PureSlot) : (ts.flatMap Trie.toList).Perm
      (ts.filterMap leafOf ++ (ts.filterMap belowOf).flatMap Trie.entries) := by
  induction ts with
  | nil => exact List.Perm.refl _
  | cons t ts ih =>
    cases t with
    | empty => exact ih
    | leaf k v => exact ih.cons (k, v)
    | branch node =>
      simp only [List.flatMap_cons, Trie.toList_branch, List.filterMap_cons, leafOf, belowOf]
      refine (ih.append_left (Trie.entries node)).trans ?_
      rw [← List.append_assoc, ← List.append_assoc]
      exact List.perm_append_comm.append_right _

theorem sum_slotSize (ts : List PureSlot) :
    (ts.map slotSize).sum = ((ts.filterMap belowOf).map nodeSize).sum := by
  induction ts with
  | nil => rfl
  | cons t ts ih =>
    cases t with
    | empty | leaf k v => simpa [slotSize, belowOf, List.filterMap_cons] using ih
    | branch node => simp [slotSize, belowOf, nodeSize, ih]

section

variable [CidCrate]

/-- The slot a pure slot is stored as: a node below is named by its CID. -/
def slotOf : PureSlot → Slot
  | .empty => .empty
  | .leaf k v => .leaf k v
  | .branch node => .branch (nodeBlock (fun i => slotOf (node i))).cid

def slotsOf (node : PureNode) : Slots := fun i => slotOf (node i)

/-- The CID a pure node is stored under. -/
def rootOf (node : PureNode) : Cid := (nodeBlock (slotsOf node)).cid

/-- The blocks of every node below a slot are in `h`. -/
def Stored (h : List Block) : PureSlot → Prop
  | .empty => True
  | .leaf _ _ => True
  | .branch node => nodeBlock (fun i => slotOf (node i)) ∈ h ∧ ∀ i, Stored h (node i)

/-- The blocks of a node and of every node below are in `h`. -/
def NodeStored (h : List Block) (node : PureNode) : Prop :=
  nodeBlock (slotsOf node) ∈ h ∧ ∀ i, Stored h (node i)

theorem Stored.mono {h h' : List Block} (hsub : ∀ b ∈ h, b ∈ h') {t : PureSlot} :
    Stored h t → Stored h' t := by
  induction t with
  | empty => exact id
  | leaf k v => exact id
  | branch node ih =>
    rintro ⟨hmem, hbelow⟩
    exact ⟨hsub _ hmem, fun i => ih i (hbelow i)⟩

theorem NodeStored.mono {h h' : List Block} (hsub : ∀ b ∈ h, b ∈ h') {node : PureNode}
    (hn : NodeStored h node) : NodeStored h' node :=
  ⟨hsub _ hn.1, fun i => (hn.2 i).mono hsub⟩

/-- The nodes below a stored node are stored. -/
theorem stored_below {h : List Block} {node below : PureNode} (hstored : NodeStored h node)
    (hb : below ∈ (slotList node).filterMap belowOf) : NodeStored h below := by
  obtain ⟨t, ht, hbelow⟩ := List.mem_filterMap.mp hb
  obtain ⟨i, _, rfl⟩ := List.mem_map.mp ht
  have hslot := hstored.2 i
  cases hnode : node i with
  | empty => rw [hnode] at hbelow; cases hbelow
  | leaf k v => rw [hnode] at hbelow; cases hbelow
  | branch node' =>
    rw [hnode] at hbelow hslot
    cases hbelow
    exact hslot

theorem slotsOf_update (node : PureNode) (i : Fin width) (t : PureSlot) :
    slotsOf (Function.update node i t) = Function.update (slotsOf node) i (slotOf t) := by
  funext j
  by_cases hj : j = i
  · subst hj
    simp [slotsOf]
  · simp [slotsOf, hj]

theorem foldl_visitSlot (ts : List PureSlot) : ∀ st : EntriesState,
    (ts.map slotOf).foldl visitSlot st
      = { stack := ((ts.filterMap belowOf).map rootOf).reverse ++ st.stack
          out := st.out ++ ts.filterMap leafOf } := by
  induction ts with
  | nil =>
    intro st
    simp
  | cons t ts ih =>
    intro st
    rw [List.map_cons, List.foldl_cons, ih]
    cases t with
    | empty | leaf k v => simp [slotOf, visitSlot, belowOf, leafOf, List.filterMap_cons]
    | branch node =>
      simp only [slotOf, visitSlot, belowOf, leafOf, List.filterMap_cons, List.map_cons,
        List.reverse_cons, List.append_assoc, List.singleton_append]
      rfl

/-! ## The operations -/

variable {S : Type} [BlockStore S] [BlockStore.Faithful S]

omit [BlockStore.Faithful S] in
theorem nodeToCid_run (slots : Slots) (s : S) : nodeToCid slots s = .ok (nodeBlock slots).cid
      (BlockStore.put s (nodeBlock slots).cid (nodeBlock slots).data) :=
  putEncoded_run _ s

section

variable {I : S → Prop} (hI : PutClosed I)
include hI

omit [BlockStore.Faithful S] in
theorem nodeToCid_keeps (slots : Slots) : Keeps I (nodeToCid slots : EStateM KError S Cid) :=
  putEncoded_keeps hI _

omit [BlockStore.Faithful S] hI in
theorem loadM_keeps (cid : Cid) : Keeps I (loadM cid : EStateM KError S Slots) := Keeps.readM _

omit [BlockStore.Faithful S] hI in
theorem newSlot_keeps {insertBelow : Slots → EntityId → Cid → EStateM KError S Cid}
    (hbelow : ∀ slots key val, Keeps I (insertBelow slots key val)) (key : EntityId)
    (val : Cid) (slot : Slot) : Keeps I (newSlot insertBelow key val slot) := by
  cases slot with
  | empty => exact Keeps.pure _
  | leaf k v =>
    rw [newSlot]
    split
    · exact Keeps.pure _
    · refine Keeps.bind (hbelow _ _ _) (fun c₁ => Keeps.bind (loadM_keeps c₁) (fun child => ?_))
      exact Keeps.bind (hbelow child key val) (fun c₂ => Keeps.pure _)
  | branch c =>
    refine Keeps.bind (loadM_keeps c) (fun child => ?_)
    exact Keeps.bind (hbelow child key val) (fun c' => Keeps.pure _)

omit [BlockStore.Faithful S] in
theorem insertSlots_keeps (levels : Nat) : ∀ (slots : Slots) (key : EntityId) (val : Cid),
    Keeps I (insertSlots levels slots key val : EStateM KError S Cid) := by
  induction levels with
  | zero =>
    intro slots key val
    exact Keeps.throw _
  | succ levels ih =>
    intro slots key val
    exact Keeps.bind (newSlot_keeps ih key val _) (fun new => nodeToCid_keeps hI _)

omit [BlockStore.Faithful S] in
theorem insert_keeps (root : Cid) (key : EntityId) (val : Cid) :
    Keeps I (insert root key val : EStateM KError S Cid) :=
  Keeps.bind (loadM_keeps root) (fun slots => insertSlots_keeps hI maxDepth slots key val)

end

theorem nodeToCid_grows (slots : Slots) : Grows history (nodeToCid slots : EStateM KError S Cid) :=
  fun b => nodeToCid_keeps (putClosed_mem b) slots

theorem loadM_grows (cid : Cid) : Grows history (loadM cid : EStateM KError S Slots) :=
  fun _ => loadM_keeps cid

theorem insertSlots_grows (levels : Nat) (slots : Slots) (key : EntityId) (val : Cid) :
    Grows history (insertSlots levels slots key val : EStateM KError S Cid) :=
  fun b => insertSlots_keeps (putClosed_mem b) levels slots key val

theorem insert_grows (root : Cid) (key : EntityId) (val : Cid) :
    Grows history (insert root key val : EStateM KError S Cid) :=
  fun b => insert_keeps (putClosed_mem b) root key val

variable {H : List Block}

/-- Storing a node whose lower nodes are stored stores it as a whole. -/
theorem nodeToCid_triple {s : S} {node : PureNode} (hbelow : ∀ i, Stored (history s) (node i)) :
    Triple history H (nodeToCid (slotsOf node)) s
      (fun cid s' => cid = rootOf node ∧ NodeStored (history s') node ∧
        ∀ b ∈ history s, b ∈ history s') (fun _ _ => False) := by
  intro _
  rw [nodeToCid_run]
  have hsub : ∀ b ∈ history s, b ∈ history (BlockStore.put s (nodeBlock (slotsOf node)).cid
      (nodeBlock (slotsOf node)).data) := by
    intro b hb
    rw [BlockStore.Faithful.history_put]
    exact List.mem_cons_of_mem _ hb
  refine ⟨rfl, ⟨?_, fun i => (hbelow i).mono hsub⟩, hsub⟩
  rw [BlockStore.Faithful.history_put]
  exact List.mem_cons_self

/-- The end of `insert_slots`: the changed slot is put in place and the node is
stored. -/
theorem update_triple {s : S} {node : PureNode} {i : Fin width} {t : PureSlot}
    (hbelow : ∀ i, Stored (history s) (node i)) (ht : Stored (history s) t) :
    Triple history H (nodeToCid (Function.update (slotsOf node) i (slotOf t))) s
      (fun cid s' => cid = rootOf (Function.update node i t) ∧
        NodeStored (history s') (Function.update node i t) ∧
        ∀ b ∈ history s, b ∈ history s') (fun _ _ => False) := by
  rw [← slotsOf_update]
  refine nodeToCid_triple (fun j => ?_)
  by_cases hj : j = i
  · subst hj
    rw [Function.update_self]
    exact ht
  · rw [Function.update_of_ne hj]
    exact hbelow j

variable [CidCrate.Lawful]

/-- A stored node loads while the history stays free of collisions. -/
theorem load_of_stored {s : S} (hfree : CollisionFree (history s)) {node : PureNode}
    (hmem : nodeBlock (slotsOf node) ∈ history s) : load s (rootOf node) = .ok (slotsOf node) :=
  load_of_get ((get_eq_some_iff hfree).mpr hmem)

theorem loadM_triple (hH : CollisionFree H) {s : S} {node : PureNode}
    (hmem : nodeBlock (slotsOf node) ∈ history s) :
    Triple history H (loadM (rootOf node)) s (fun slots s' => slots = slotsOf node ∧ s' = s)
      (fun _ _ => False) := by
  refine Triple.readM (fun hlog => ?_)
  rw [load_of_stored (hH.mono hlog) hmem]
  exact ⟨rfl, rfl⟩

/-- What `insert_slots` does at a number of levels left: on a stored node it returns
the CID of the node pure insertion gives, and leaves that node stored. -/
def Simulates (H : List Block) (levels : Nat)
    (insertAt : Slots → EntityId → Cid → EStateM KError S Cid) : Prop :=
  ∀ (node node' : PureNode) (key : EntityId) (val : Cid) (s : S),
    Trie.insert nibble levels (maxDepth - levels) node key val = some node' →
    (∀ i, Stored (history s) (node i)) →
    Triple history H (insertAt (slotsOf node) key val) s
      (fun cid s' => cid = rootOf node' ∧ NodeStored (history s') node' ∧
        ∀ b ∈ history s, b ∈ history s')
      (fun _ _ => False)

/-- The new slot stands for the slot pure insertion puts in place. -/
theorem newSlot_triple (hH : CollisionFree H) {levels : Nat} (hle : levels + 1 ≤ maxDepth)
    {insertBelow : Slots → EntityId → Cid → EStateM KError S Cid}
    (hgrows : ∀ slots key val, Grows history (insertBelow slots key val))
    (hsim : Simulates H levels insertBelow) {node node' : PureNode} {key : EntityId} {val : Cid}
    {s : S}
    (hins : Trie.insert nibble (levels + 1) (maxDepth - (levels + 1)) node key val = some node')
    (hbelow : ∀ i, Stored (history s) (node i)) : Triple history H
      (newSlot insertBelow key val (slotsOf node (nibble key (maxDepth - (levels + 1))))) s
      (fun new s' => ∃ t, new = slotOf t ∧
        node' = Function.update node (nibble key (maxDepth - (levels + 1))) t ∧
        Stored (history s') t ∧ ∀ b ∈ history s, b ∈ history s') (fun _ _ => False) := by
  have hdepth : maxDepth - (levels + 1) + 1 = maxDepth - levels := by omega
  rw [Trie.insert, hdepth] at hins
  rw [slotsOf]
  cases hslot : node (nibble key (maxDepth - (levels + 1))) with
  | empty =>
    rw [hslot] at hins
    cases hins
    exact Triple.pure ⟨.leaf key val, rfl, rfl, trivial, fun b hb => hb⟩
  | leaf k v =>
    rw [hslot] at hins
    dsimp only at hins
    rw [slotOf, newSlot]
    by_cases hk : k = key
    · rw [if_pos hk] at hins ⊢
      cases hins
      exact Triple.pure ⟨.leaf key val, rfl, rfl, trivial, fun b hb => hb⟩
    · rw [if_neg hk] at hins ⊢
      obtain ⟨below₁, hins₁, hins⟩ := Option.bind_eq_some_iff.mp hins
      obtain ⟨below₂, hins₂, hins⟩ := Option.bind_eq_some_iff.mp hins
      cases hins
      refine Triple.bind (hsim Trie.vacant below₁ k v s hins₁ (fun _ => trivial))
        (fun c₁ => Grows.bind (loadM_grows c₁) (fun child =>
          Grows.bind (hgrows child key val) (fun _ => Grows.pure _))) ?_
      rintro _ s₁ _ ⟨rfl, hstored₁, hsub₁⟩
      refine Triple.bind (loadM_triple hH hstored₁.1)
        (fun child => Grows.bind (hgrows child key val) (fun _ => Grows.pure _)) ?_
      rintro _ _ _ ⟨rfl, rfl⟩
      refine Triple.bind (hsim below₁ below₂ key val _ hins₂ hstored₁.2)
        (fun _ => Grows.pure _) ?_
      rintro _ s₂ _ ⟨rfl, hstored₂, hsub₂⟩
      exact Triple.pure ⟨.branch below₂, rfl, rfl, hstored₂,
        fun b hb => hsub₂ b (hsub₁ b hb)⟩
  | branch below =>
    have hstored : NodeStored (history s) below := by
      have hslotStored := hbelow (nibble key (maxDepth - (levels + 1)))
      rw [hslot] at hslotStored
      exact hslotStored
    rw [hslot] at hins
    dsimp only at hins
    obtain ⟨below', hins', hins⟩ := Option.bind_eq_some_iff.mp hins
    cases hins
    rw [slotOf, newSlot]
    refine Triple.bind (loadM_triple hH hstored.1)
      (fun child => Grows.bind (hgrows child key val) (fun _ => Grows.pure _)) ?_
    rintro _ _ _ ⟨rfl, rfl⟩
    refine Triple.bind (hsim below below' key val _ hins' hstored.2)
      (fun _ => Grows.pure _) ?_
    rintro _ s₁ _ ⟨rfl, hstored', hsub⟩
    exact Triple.pure ⟨.branch below', rfl, rfl, hstored', hsub⟩

/-- **The simulation**, at every number of levels left. -/
theorem insertSlots_simulates (hH : CollisionFree H) (levels : Nat) :
    levels ≤ maxDepth → Simulates (S := S) H levels (insertSlots levels) := by
  induction levels with
  | zero =>
    intro _ node node' key val s hins _
    cases hins
  | succ levels ih =>
    intro hle node node' key val s hins hbelow
    rw [insertSlots]
    refine Triple.bind (newSlot_triple hH hle (insertSlots_grows levels) (ih (by omega)) hins
      hbelow) (fun _ => nodeToCid_grows _) ?_
    rintro _ s₁ _ ⟨t, rfl, rfl, ht, hsub⟩
    refine (update_triple (fun i => (hbelow i).mono hsub) ht).conseq ?_ (fun _ _ h => h)
    rintro cid s₂ ⟨hcid, hstored, hsub'⟩
    exact ⟨hcid, hstored, fun b hb => hsub' b (hsub b hb)⟩

/-! ## Reading a stored trie -/

/-- The lookup loop reads what pure lookup finds. -/
theorem getFrom_of_stored {s : S} (hfree : CollisionFree (history s)) (key : EntityId)
    (levels : Nat) : ∀ node : PureNode, levels ≤ maxDepth → NodeStored (history s) node →
      getFrom s key levels (rootOf node)
        = .ok (Trie.find nibble levels (maxDepth - levels) node key) := by
  induction levels with
  | zero =>
    intro node _ _
    rfl
  | succ levels ih =>
    intro node hle hstored
    have hdepth : maxDepth - (levels + 1) + 1 = maxDepth - levels := by omega
    have hslotStored := hstored.2 (nibble key (maxDepth - (levels + 1)))
    rw [getFrom, load_of_stored hfree hstored.1, Trie.find, hdepth]
    simp only [ok_bind, slotsOf]
    cases hslot : node (nibble key (maxDepth - (levels + 1))) with
    | empty => rfl
    | leaf k v => rfl
    | branch below =>
      rw [hslot] at hslotStored
      exact ih below (by omega) hslotStored

/-! The listing visits nodes from a stack. -/

/-- One round over a stored node. -/
theorem entriesBody_of_stored {s : S} (hfree : CollisionFree (history s)) {node : PureNode}
    (hmem : nodeBlock (slotsOf node) ∈ history s) (stack : List Cid)
    (out : List (EntityId × Cid)) :
    entriesBody s { stack := rootOf node :: stack, out }
      = .inl { stack := (((slotList node).filterMap belowOf).map rootOf).reverse ++ stack
               out := out ++ (slotList node).filterMap leafOf } := by
  have hfold := foldl_visitSlot (slotList node) { stack, out }
  rw [slotList, List.map_map, List.foldl_map] at hfold
  simp only [entriesBody, load_of_stored hfree hmem]
  exact congrArg Sum.inl hfold

/-- **The listing** of a stack of nodes: an order of their entries that depends on
the nodes alone, returned from every store that holds them. -/
theorem entries_of_stored (n : Nat) : ∀ (nodes : List PureNode) (out : List (EntityId × Cid)),
    (nodes.map nodeSize).sum ≤ n → ∃ l, l.Perm (out ++ nodes.flatMap Trie.entries) ∧
      ∀ s : S, CollisionFree (history s) → (∀ node ∈ nodes, NodeStored (history s) node) →
        Loop.Leaves (entriesBody s) { stack := nodes.map rootOf, out } (.ok l) := by
  induction n with
  | zero =>
    intro nodes out hn
    cases nodes with
    | nil => exact ⟨out, by simp, fun s _ _ => .leave rfl⟩
    | cons node rest =>
      simp only [List.map_cons, List.sum_cons, nodeSize] at hn
      omega
  | succ n ih =>
    intro nodes out hn
    cases nodes with
    | nil => exact ⟨out, by simp, fun s _ _ => .leave rfl⟩
    | cons node rest =>
      have hsize := sum_slotSize (slotList node)
      obtain ⟨l, hperm, hleaves⟩ := ih (((slotList node).filterMap belowOf).reverse ++ rest)
        (out ++ (slotList node).filterMap leafOf) (by
          rw [List.map_append, List.map_reverse, List.sum_append, List.sum_reverse, ← hsize]
          simp only [List.map_cons, List.sum_cons, nodeSize] at hn
          rw [slotList, List.map_map]
          simp only [Function.comp_def]
          omega)
      refine ⟨l, hperm.trans ?_, ?_⟩
      · rw [List.flatMap_append, List.flatMap_cons, List.append_assoc]
        refine List.Perm.append_left out ?_
        rw [← List.append_assoc]
        refine List.Perm.append_right _ ?_
        have hentries : Trie.entries node = (slotList node).flatMap Trie.toList := by
          rw [slotList, List.flatMap_map]
          rfl
        rw [hentries]
        refine List.Perm.trans ?_ (perm_leaves_below (slotList node)).symm
        exact List.Perm.append_left _ ((List.reverse_perm _).flatMap_right _)
      · intro s hfree hstored
        have hnode := hstored node List.mem_cons_self
        refine .again (entriesBody_of_stored hfree hnode.1 _ out) ?_
        have hnext := hleaves s hfree (by
          intro node' hnode'
          rcases List.mem_append.mp hnode' with hb | hr
          · exact stored_below hnode (List.mem_reverse.mp hb)
          · exact hstored node' (List.mem_cons_of_mem _ hr))
        rw [List.map_append, List.map_reverse] at hnext
        exact hnext

end

end Hamt

end Ipfrs.Knowledge
