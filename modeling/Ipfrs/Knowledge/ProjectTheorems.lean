/-
Ipfrs.Knowledge.ProjectTheorems — when the projection has a page for every entity, with the
right wikilinks.

Pages are keyed by the slug of a name, entities by a hash of kind and name. So two
entities with one slug share a key, and the page of the second replaces that of the
first; and a wikilink, which is the slug of the name an object was stored under, leads
elsewhere when the entity's name has another slug by now. `SlugsApart` excludes both.
The wikilinks are read off the text of a page, and the texts that a page takes over from
the graph stand there as they are: a kind, a name, the list of the aliases, an attribute or
a predicate may have a wikilink of its own, which is of no relation. `NoStrayLinks` excludes
that, and nothing else is needed (`render_projects_iff`).

A page is a sequence of lines, so its wikilinks are those of its lines
(`Reads.append`): the ones of the texts, and for each relation the slug. As there is
one slug for each relation, wikilinks and relations match one by one exactly if the texts
have none (`forall₂_strays_iff`). That a page found under a key is the one of a given
entity is read off its text, which starts with the id (`frontmatter_inj`).
-/
import Ipfrs.Knowledge.Linked
import Ipfrs.Knowledge.Project
import Ipfrs.Lib.DebugText
import Ipfrs.Lib.Wikilinks

namespace Ipfrs.Knowledge

open Ipfrs.Core Ipfrs.Lib
open BlockStore.Faithful (history)

/-! ## Texts -/

theorem hexPair_injective (b c : UInt8) (h : hexPair b = hexPair c) : b = c := by
  have hb := b.toNat_lt
  have hc := c.toNat_lt
  simp only [hexPair, List.cons.injEq, and_true] at h
  have hhigh := DebugText.Printer.digitChar_inj _ (by omega) _ (by omega) h.1
  have hlow := DebugText.Printer.digitChar_inj _ (by omega) _ (by omega) h.2
  exact UInt8.toNat_inj.mp (by omega)

theorem flatMap_hexPair_inj : ∀ {l m : List UInt8}, l.flatMap hexPair = m.flatMap hexPair → l = m
  | [], [], _ => rfl
  | [], c :: m, h => by simp [hexPair] at h
  | b :: l, [], h => by simp [hexPair] at h
  | b :: l, c :: m, h => by
    rw [List.flatMap_cons, List.flatMap_cons] at h
    obtain ⟨hhead, htail⟩ := List.append_inj h rfl
    rw [hexPair_injective b c hhead, flatMap_hexPair_inj htail]

theorem EntityId.toHex_injective {id id' : EntityId} (h : id.toHex = id'.toHex) : id = id' := by
  have hbytes := flatMap_hexPair_inj (String.ofList_injective h)
  cases id
  cases id'
  cases hbytes
  rfl

theorem EntityId.length_toHex (id : EntityId) : id.toHex.toList.length = 64 := by
  have hlen : ∀ l : List UInt8, (l.flatMap hexPair).length = 2 * l.length := by
    intro l
    induction l with
    | nil => rfl
    | cons b l ih =>
      rw [List.flatMap_cons, List.length_append, ih, List.length_cons]
      simp only [hexPair, List.length_cons, List.length_nil]
      omega
  rw [EntityId.toHex, String.toList_ofList, hlen, id.size_eq]

section

variable [RustFormat] [RustFormat.Lawful]

theorem plain_slugChar {st : List Char × Bool} (h : Plain st.1) (c : Char) :
    Plain (slugChar st c).1 := by
  intro d hd
  rw [slugChar] at hd
  split at hd
  · next hc =>
    rcases List.mem_append.mp hd with hd | hd
    · exact h d hd
    · exact RustFormat.Lawful.plain_lowercase c hc d hd
  · split at hd
    · rcases List.mem_append.mp hd with hd | hd
      · exact h d hd
      · rw [List.mem_singleton.mp hd]
        decide
    · exact h d hd

theorem plain_foldl (chars : List Char) : ∀ {st : List Char × Bool},
    Plain st.1 → Plain (chars.foldl slugChar st).1 := by
  induction chars with
  | nil => exact fun h => h
  | cons c chars ih => exact fun h => ih (plain_slugChar h c)

/-- A slug is the text of a link. -/
theorem plain_slug [RustText] (name : String) : Plain (slug name).toList := by
  have hout : Plain ((RustText.trim name).toList.foldl slugChar ([], false)).1 :=
    plain_foldl _ (by simp [Plain])
  simp only [slug]
  split
  · decide
  · rw [String.toList_ofList]
    intro d hd
    exact hout d (List.mem_reverse.mp (List.dropWhile_subset _ (List.mem_reverse.mp hd)))

end

namespace KnowledgeGraph

/-- A page tells the id of its entity. -/
theorem frontmatter_inj {id id' : EntityId} {kind kind' name name' : String}
    {aliases aliases' : List String} {rest rest' : String}
    (h : frontmatter id kind name aliases ++ rest = frontmatter id' kind' name' aliases' ++ rest') :
    id = id' := by
  have hlist := congrArg String.toList h
  simp only [frontmatter, String.toList_append, List.append_assoc] at hlist
  have hafter := List.append_cancel_left (List.append_cancel_left hlist)
  have hhex := (List.append_inj hafter
    (by rw [EntityId.length_toHex, EntityId.length_toHex])).1
  exact EntityId.toHex_injective (String.toList_injective hhex)

end KnowledgeGraph

/-- A list read with strays between its own entries matches the entries exactly if there
are no strays. -/
theorem forall₂_strays_iff {α β : Type} (R : α → β → Prop) (front back : β → List α) (g : β → α)
    (strays : List α) (l : List β) :
    List.Forall₂ R (strays ++ l.flatMap (fun b => front b ++ g b :: back b)) l ↔
      (strays = [] ∧ ∀ b ∈ l, front b = [] ∧ back b = []) ∧ ∀ b ∈ l, R (g b) b := by
  have hlen : ∀ l : List β, (l.flatMap (fun b => front b ++ g b :: back b)).length
      = l.length + (l.flatMap (fun b => front b ++ back b)).length := by
    intro l
    induction l with
    | nil => rfl
    | cons b l ih =>
      simp only [List.flatMap_cons, List.length_append, List.length_cons, ih]
      omega
  have hnone : strays = [] → (∀ b ∈ l, front b = [] ∧ back b = []) →
      strays ++ l.flatMap (fun b => front b ++ g b :: back b) = l.map g := by
    intro hstrays hl
    rw [hstrays, List.nil_append, List.map_eq_flatMap]
    apply List.flatMap_congr
    intro b hb
    rw [(hl b hb).1, (hl b hb).2, List.nil_append]
  constructor
  · intro h
    have hsame := h.length_eq
    rw [List.length_append, hlen] at hsame
    have hstrays : strays = [] := List.length_eq_zero_iff.mp (by omega)
    have hl : l.flatMap (fun b => front b ++ back b) = [] := List.length_eq_zero_iff.mp (by omega)
    have hl' : ∀ b ∈ l, front b = [] ∧ back b = [] := fun b hb =>
      List.append_eq_nil_iff.mp (List.flatMap_eq_nil_iff.mp hl b hb)
    rw [hnone hstrays hl', List.forall₂_map_left_iff, List.forall₂_same] at h
    exact ⟨⟨hstrays, hl'⟩, h⟩
  · intro h
    obtain ⟨⟨hstrays, hl⟩, hR⟩ := h
    rw [hnone hstrays hl, List.forall₂_map_left_iff, List.forall₂_same]
    exact hR

namespace KnowledgeGraph

variable [CidCrate] [RustText] [RustFormat] {S : Type} [BlockStore S]

/-! ## The property and its condition -/

/-- The name an entity has now. -/
def currentName (kg : KnowledgeGraph S) (id : EntityId) : Option String :=
  match kg.getEntity id with
  | .ok (some (.entity _ _ name _ _ _)) => some name
  | _ => none

/-- A relation, with the entity that is its object and the name in the node that it points
at. -/
structure Linking where
  predicate : String
  object : EntityId
  name : String

def linkingOf (store : S) (rel : Cid × KnowledgeNode) : Option Linking :=
  match rel.2 with
  | .relation _ predicate object _ _ =>
    match getNode store object with
    | .ok (.entity oid _ name _ _ _) => some { predicate, object := oid, name }
    | _ => none
  | _ => none

/-- The relations of an entity. -/
def linkings (kg : KnowledgeGraph S) (id : EntityId) : List Linking :=
  match kg.relationsOf id with
  | .ok rels => rels.filterMap (linkingOf kg.store)
  | .error _ => []

/-- The text of the page under the slug is that of the object's page. -/
def Names (kg : KnowledgeGraph S) (pages : List (String × String)) (s : String) (link : Linking) :
    Prop :=
  ∃ key md, kg.pageOf link.object = .ok (some (key, md)) ∧
    SortedAssoc.get? pages (s ++ ".md") = some md

/-- One page for each id, and the wikilinks of its text name, one by one, the pages of the
objects of the entity's relations. -/
structure Projects (kg : KnowledgeGraph S) (ids : List EntityId)
    (pages : List (String × String)) : Prop where
  count : pages.length = ids.length
  page : ∀ id ∈ ids, ∃ key md, kg.pageOf id = .ok (some (key, md)) ∧
    SortedAssoc.get? pages key = some md
  links : ∀ id ∈ ids, ∀ key md, kg.pageOf id = .ok (some (key, md)) →
    List.Forall₂ (kg.Names pages) (wikilinks md) (kg.linkings id)

/-- No two entities have one slug, and no object's name has changed its slug. -/
structure SlugsApart (kg : KnowledgeGraph S) (ids : List EntityId) : Prop where
  distinct : ∀ id ∈ ids, ∀ id' ∈ ids,
    (kg.currentName id).map slug = (kg.currentName id').map slug → id = id'
  targets : ∀ id ∈ ids, ∀ link ∈ kg.linkings id,
    (kg.currentName link.object).map slug = some (slug link.name)

/-- The texts of an entity's node. The aliases stand in a list, an attribute behind its key. -/
def nodeTexts : KnowledgeNode → List String
  | .entity _ kind name aliases attrs _ =>
    [kind, "[" ++ ", ".intercalate aliases ++ "]", name]
      ++ attrs.1.map (fun e => e.1 ++ "**: " ++ e.2)
  | _ => []

/-- None of the texts that a page takes over has a wikilink. -/
structure NoStrayLinks (kg : KnowledgeGraph S) (ids : List EntityId) : Prop where
  node : ∀ id ∈ ids, ∀ node, kg.getEntity id = .ok (some node) →
    ∀ text ∈ nodeTexts node, wikilinks text = []
  relation : ∀ id ∈ ids, ∀ link ∈ kg.linkings id,
    wikilinks link.predicate = [] ∧ wikilinks link.name = []

/-! ## The wikilinks of a page -/

section

omit [CidCrate] [RustText] [RustFormat] [BlockStore S]

theorem plain_toHex (id : EntityId) : '[' ∉ id.toHex.toList := by
  have hdigit : ∀ d < 16, Nat.digitChar d ≠ '[' := by decide
  rw [EntityId.toHex, String.toList_ofList, List.mem_flatMap]
  rintro ⟨b, -, hb⟩
  have hlt := b.toNat_lt
  simp only [hexPair, List.mem_cons, List.not_mem_nil, or_false] at hb
  rcases hb with h | h
  · exact hdigit _ (by omega) h.symm
  · exact hdigit _ (by omega) h.symm

/-- The head of a page. -/
theorem reads_frontmatter (id : EntityId) (kind name : String) (aliases : List String) :
    Reads (frontmatter id kind name aliases)
      ([kind, "[" ++ ", ".intercalate aliases ++ "]", name].flatMap wikilinks) := by
  have hrule : Reads "---\n" [] := .plain (by simp)
  have hid : Reads ("id: " ++ id.toHex ++ "\n") [] := .plain (by simp [plain_toHex])
  have hkind : Reads ("kind: " ++ kind ++ "\n") (wikilinks kind) := .item (by simp) kind
  have haliases : Reads (if aliases.isEmpty then ""
      else "aliases: [" ++ ", ".intercalate aliases ++ "]\n")
      (wikilinks ("[" ++ ", ".intercalate aliases ++ "]")) := by
    cases aliases with
    | nil => exact .plain (by simp)
    | cons a as =>
      have hsplit : "aliases: [" ++ ", ".intercalate (a :: as) ++ "]\n"
          = "aliases: " ++ ("[" ++ ", ".intercalate (a :: as) ++ "]") ++ "\n" := by
        apply String.toList_injective
        simp
      rw [List.isEmpty_cons, if_neg Bool.false_ne_true, hsplit]
      exact .item (by simp) _
  have hname : Reads ("\n# " ++ name ++ "\n\n") (wikilinks name) := by
    have hsplit : "\n# " ++ name ++ "\n\n" = "\n# " ++ name ++ "\n" ++ "\n" := by
      apply String.toList_injective
      simp
    rw [hsplit, ← List.append_nil (wikilinks name)]
    exact (Reads.item (by simp) name).append (.plain (by simp))
  have hall := ((((hrule.append hid).append hkind).append haliases).append hrule).append hname
  simpa [frontmatter, List.flatMap_cons] using hall

/-- The attributes. -/
theorem reads_attributesText (attrs : StringMap) :
    Reads (attributesText attrs)
      (attrs.1.flatMap (fun e => wikilinks (e.1 ++ "**: " ++ e.2))) := by
  rw [attributesText]
  split
  · next h =>
    rw [List.isEmpty_iff.mp h]
    exact .plain (by simp)
  · have hline : ∀ e ∈ attrs.1, Reads ("- **" ++ e.1 ++ "**: " ++ e.2 ++ "\n")
        (wikilinks (e.1 ++ "**: " ++ e.2)) := by
      intro e _
      have hfront : '[' ∉ "- **".toList := by simp
      have hitem := Reads.item hfront (e.1 ++ "**: " ++ e.2)
      simpa only [String.append_assoc] using hitem
    have hhead : Reads "## Attributes\n\n" [] := .plain (by simp)
    have hend : Reads "\n" [] := .plain (by simp)
    simpa using (hhead.append (Reads.join hline)).append hend

theorem reads_relationsText {lines links : List String} (h : Reads (String.join lines) links) :
    Reads (relationsText lines) links := by
  rw [relationsText]
  split
  · next hnil =>
    rw [List.isEmpty_iff.mp hnil] at h
    exact h
  · have hhead : Reads "## Relations\n\n" [] := .plain (by simp)
    have hend : Reads "\n" [] := .plain (by simp)
    simpa using (hhead.append h).append hend

end

/-- The wikilinks of a relation's line. -/
def Linking.wikilinks (link : Linking) : List String :=
  Lib.wikilinks link.predicate ++ slug link.name :: Lib.wikilinks link.name

variable [RustFormat.Lawful]

omit [CidCrate] [BlockStore S] in
/-- The line of a relation has a wikilink between those of its texts. -/
theorem reads_line (link : Linking) (weight : UInt32) :
    Reads ("- " ++ link.predicate ++ " → [[" ++ slug link.name ++ "]] (" ++ link.name ++ ") `w="
      ++ RustFormat.displayF32 weight ++ "`\n") link.wikilinks := by
  obtain ⟨hopen, hclose⟩ := RustFormat.Lawful.plain_display weight
  have hsplit : "- " ++ link.predicate ++ " → [[" ++ slug link.name ++ "]] (" ++ link.name
        ++ ") `w=" ++ RustFormat.displayF32 weight ++ "`\n"
      = ("- " ++ (link.predicate ++ " →") ++ " [[" ++ slug link.name ++ "]]"
        ++ (" (" ++ (link.name ++ (") `w=" ++ RustFormat.displayF32 weight ++ "`")))) ++ "\n" := by
    apply String.toList_injective
    simp
  have hline := Reads.line ("- " ++ (link.predicate ++ " →") ++ " [[" ++ slug link.name ++ "]]"
    ++ (" (" ++ (link.name ++ (") `w=" ++ RustFormat.displayF32 weight ++ "`"))))
  rw [wikilinks_link (plain_slug _), wikilinks_behind (by simp),
    wikilinks_suffix (by simp) (by simp), wikilinks_behind (by simp),
    wikilinks_suffix (by simp [hopen]) (by simp [hclose])] at hline
  rw [hsplit]
  exact hline

/-! ## Pages -/

variable [BlockStore.Faithful S] [CidCrate.Lawful] {kg : KnowledgeGraph S} {a : GraphModel}

omit [RustFormat] [RustFormat.Lawful] in
theorem currentName_eq (hs : Sound kg.log) (hl : Linked kg.log kg.index kg.edges a)
    (id : EntityId) : kg.currentName id = (a.entities id).map EntitySpec.name := by
  rw [currentName, getEntity_eq hs hl.refines]
  cases a.entities id with
  | none => rfl
  | some spec => rfl

/-- The line of every relation is written, and its object is a known entity. -/
theorem exists_line (hs : Sound kg.log) (hl : Linked kg.log kg.index kg.edges a)
    {id : EntityId} {r : RelationSpec} (hr : r ∈ a.relations id) (cid : Cid) :
    ∃ link line, linkingOf kg.store (cid, r.readNode) = some link ∧
      relationLine kg.store (cid, r.readNode) = .ok line ∧ Reads line link.wikilinks ∧
      (a.entities link.object).isSome := by
  obtain ⟨spec, hb, hcid, hknown⟩ := hl.object id r hr
  have hnode := getNode_entity hs hb
  rw [← hcid] at hnode
  have hline := reads_line ⟨r.predicate, .of spec.kind spec.name, spec.name⟩
    (f64ToF32 (f32ToF64 r.weight))
  refine ⟨_, _, ?_, ?_, hline, hknown⟩
  · simp only [linkingOf, RelationSpec.readNode, hnode, entityNode]
  · simp only [relationLine, RelationSpec.readNode, hnode, ok_bind]
    rfl

omit [BlockStore.Faithful S] [CidCrate.Lawful] [RustFormat.Lawful] in
/-- The lines of relations that each have one. -/
theorem exists_lines {store : S} (known : EntityId → Prop) :
    ∀ {rels : List (Cid × KnowledgeNode)}, (∀ rel ∈ rels, ∃ link line,
      linkingOf store rel = some link ∧ relationLine store rel = .ok line ∧
        Reads line link.wikilinks ∧ known link.object) →
    ∃ lines, collectOk (relationLine store) rels = .ok lines ∧
      Reads (String.join lines) ((rels.filterMap (linkingOf store)).flatMap Linking.wikilinks) ∧
      ∀ link ∈ rels.filterMap (linkingOf store), known link.object
  | [], _ => ⟨[], rfl, .plain (by simp), by simp⟩
  | rel :: rels, h => by
    obtain ⟨link, line, hlink, hline, hreads, hknown⟩ := h rel List.mem_cons_self
    obtain ⟨lines, hlines, hrest, hall⟩ :=
      exists_lines known (fun rel' hrel => h rel' (List.mem_cons_of_mem _ hrel))
    refine ⟨line :: lines, by simp [collectOk, hline, hlines], ?_, ?_⟩
    · rw [List.filterMap_cons_some hlink, List.flatMap_cons, String.join_cons]
      exact hreads.append hrest
    · rw [List.filterMap_cons_some hlink]
      exact List.forall_mem_cons.mpr ⟨hknown, hall⟩

/-- **The page of an entity**: it starts with the head, and its wikilinks are those of the
texts of the node and of the lines of the relations. -/
theorem pageOf_eq (hs : Sound kg.log) (hl : Linked kg.log kg.index kg.edges a)
    {id : EntityId} {spec : EntitySpec} (hspec : a.entities id = some spec) :
    ∃ rest, kg.pageOf id = .ok (some (slug spec.name ++ ".md",
        frontmatter id spec.kind spec.name spec.aliases ++ rest)) ∧
      wikilinks (frontmatter id spec.kind spec.name spec.aliases ++ rest)
        = (nodeTexts (entityNode spec)).flatMap wikilinks
          ++ (kg.linkings id).flatMap Linking.wikilinks ∧
      ∀ link ∈ kg.linkings id, (a.entities link.object).isSome := by
  have hrels := relationsOf_eq hs hl.refines id
  have hline : ∀ rel ∈ (a.relations id).map (fun r => ((relationBlock r).cid, r.readNode)),
      ∃ link line, linkingOf kg.store rel = some link ∧ relationLine kg.store rel = .ok line ∧
        Reads line link.wikilinks ∧ (a.entities link.object).isSome := by
    intro rel hrel
    obtain ⟨r, hr, rfl⟩ := List.mem_map.mp hrel
    exact exists_line hs hl hr _
  obtain ⟨lines, hlines, hreads, hknown⟩ :=
    exists_lines (fun object => (a.entities object).isSome) hline
  have hlinks : kg.linkings id = ((a.relations id).map
      (fun r => ((relationBlock r).cid, r.readNode))).filterMap (linkingOf kg.store) := by
    rw [linkings, hrels]
  refine ⟨attributesText spec.attrs ++ relationsText lines, ?_, ?_, ?_⟩
  · rw [pageOf, getEntity_eq hs hl.refines, hspec]
    simp only [Option.map_some, ok_bind, entityNode, hrels, hlines, String.append_assoc]
  · have hpage := (reads_frontmatter id spec.kind spec.name spec.aliases).append
      ((reads_attributesText spec.attrs).append (reads_relationsText hreads))
    rw [hpage.eq, hlinks]
    simp [nodeTexts, entityNode, List.flatMap_map]
  · rw [hlinks]
    exact hknown

omit [BlockStore.Faithful S] [CidCrate.Lawful] [RustFormat.Lawful] in
/-- The loop inserts the page of every id. -/
theorem renderIds_ok {entry : EntityId → String × String} : ∀ {ids : List EntityId}
    (pages : List (String × String)), (∀ id ∈ ids, kg.pageOf id = .ok (some (entry id))) →
    renderIds kg ids pages
      = .ok ((ids.map entry).foldl (fun acc e => SortedAssoc.insert e.1 e.2 acc) pages)
  | [], _, _ => rfl
  | id :: ids, pages, h => by
    rw [renderIds, h id List.mem_cons_self, ok_bind]
    exact renderIds_ok _ (fun id' hid => h id' (List.mem_cons_of_mem _ hid))

section

variable {entry : EntityId → String × String} {ids l : List EntityId}

omit [BlockStore.Faithful S] [CidCrate.Lawful] [RustFormat.Lawful] in
/-- A wikilink names a page exactly if it is the page's key. -/
theorem names_iff (hperm : l.Perm ids) (hdistinct : ((l.map entry).map Prod.fst).Nodup)
    (hentry : ∀ id ∈ ids, kg.pageOf id = .ok (some (entry id)))
    (htext : ∀ id ∈ ids, ∀ id' ∈ ids, (entry id).2 = (entry id').2 → id = id')
    {link : Linking} (hobject : link.object ∈ ids) (s : String) :
    kg.Names (SortedAssoc.ofEntries (l.map entry)) s link ↔
      (entry link.object).1 = s ++ ".md" := by
  constructor
  · rintro ⟨key, md, hpage, hget⟩
    rw [hentry _ hobject] at hpage
    -- the page under the link has the object's text, so it is the object's
    obtain ⟨owner, howner, heq⟩ := List.mem_map.mp
      (SortedAssoc.mem_of_mem_ofEntries (SortedAssoc.mem_of_get? hget))
    have hsame : (entry owner).2 = (entry link.object).2 := by
      rw [heq, Option.some.inj (Except.ok.inj hpage)]
    have hid := htext owner (hperm.mem_iff.mp howner) link.object hobject hsame
    rw [← hid, heq]
  · intro hkey
    refine ⟨_, _, hentry _ hobject, ?_⟩
    rw [← hkey]
    exact SortedAssoc.get?_ofEntries_of_nodup hdistinct
      (List.mem_map_of_mem (hperm.mem_iff.mpr hobject))

omit [BlockStore.Faithful S] [CidCrate.Lawful] [RustFormat.Lawful] in
/-- The property, for pages that are known for every id. -/
theorem projects_iff {strays : EntityId → List String} (hperm : l.Perm ids) (hnodup : ids.Nodup)
    (hentry : ∀ id ∈ ids, kg.pageOf id = .ok (some (entry id)))
    (htext : ∀ id ∈ ids, ∀ id' ∈ ids, (entry id).2 = (entry id').2 → id = id')
    (hlinks : ∀ id ∈ ids, wikilinks (entry id).2
      = strays id ++ (kg.linkings id).flatMap Linking.wikilinks)
    (hobject : ∀ id ∈ ids, ∀ link ∈ kg.linkings id, link.object ∈ ids) :
    Projects kg ids (SortedAssoc.ofEntries (l.map entry)) ↔
      (∀ id ∈ ids, ∀ id' ∈ ids, (entry id).1 = (entry id').1 → id = id') ∧
      ∀ id ∈ ids, (strays id = [] ∧
          ∀ link ∈ kg.linkings id, wikilinks link.predicate = [] ∧ wikilinks link.name = []) ∧
        ∀ link ∈ kg.linkings id, (entry link.object).1 = slug link.name ++ ".md" := by
  have hkeys : ((l.map entry).map Prod.fst).Nodup ↔
      ∀ id ∈ ids, ∀ id' ∈ ids, (entry id).1 = (entry id').1 → id = id' := by
    rw [List.map_map, List.nodup_map_iff_inj_on (hperm.nodup_iff.mpr hnodup)]
    simp only [hperm.mem_iff, Function.comp_apply]
  have hcount : (SortedAssoc.ofEntries (l.map entry)).length = ids.length ↔
      ((l.map entry).map Prod.fst).Nodup := by
    rw [← SortedAssoc.length_ofEntries_eq_iff, List.length_map, hperm.length_eq]
  -- the wikilinks of a page, once no page replaces another
  have hpage : ((l.map entry).map Prod.fst).Nodup → ∀ id ∈ ids,
      (List.Forall₂ (kg.Names (SortedAssoc.ofEntries (l.map entry))) (wikilinks (entry id).2)
          (kg.linkings id) ↔
        (strays id = [] ∧
          ∀ link ∈ kg.linkings id, wikilinks link.predicate = [] ∧ wikilinks link.name = []) ∧
        ∀ link ∈ kg.linkings id, (entry link.object).1 = slug link.name ++ ".md") := by
    intro hdistinct id hid
    have hstrays := forall₂_strays_iff (kg.Names (SortedAssoc.ofEntries (l.map entry)))
      (fun link => wikilinks link.predicate) (fun link => wikilinks link.name)
      (fun link => slug link.name) (strays id) (kg.linkings id)
    rw [hlinks id hid]
    refine hstrays.trans (and_congr_right (fun _ => ?_))
    exact forall₂_congr (fun link hlink =>
      names_iff hperm hdistinct hentry htext (hobject id hid link hlink) _)
  constructor
  · intro h
    have hdistinct := hcount.mp h.count
    refine ⟨hkeys.mp hdistinct, ?_⟩
    intro id hid
    exact (hpage hdistinct id hid).mp (h.links id hid _ _ (hentry id hid))
  · intro h
    obtain ⟨hinj, hall⟩ := h
    have hdistinct := hkeys.mpr hinj
    refine ⟨hcount.mpr hdistinct, ?_, ?_⟩
    · intro id hid
      exact ⟨_, _, hentry id hid, SortedAssoc.get?_ofEntries_of_nodup hdistinct
        (List.mem_map_of_mem (hperm.mem_iff.mpr hid))⟩
    · intro id hid key md hmd
      rw [hentry id hid] at hmd
      have hentry' : entry id = (key, md) := Option.some.inj (Except.ok.inj hmd)
      have hmatch := (hpage hdistinct id hid).mpr (hall id hid)
      rwa [hentry'] at hmatch

end

/-- The projection of a linked graph. -/
theorem render_of_linked (hs : Sound kg.log) (hl : Linked kg.log kg.index kg.edges a) :
    ∃ ids pages n, (∀ rounds ≥ n, kg.entityIds rounds = some (.ok ids) ∧
        kg.render rounds = some (.ok pages)) ∧
      (Projects kg ids pages ↔ SlugsApart kg ids ∧ NoStrayLinks kg ids) := by
  obtain ⟨ids, n, hnodup, hknown, hlist⟩ := entityIds_of_refines hs hl.refines
  have : Nonempty EntitySpec := ⟨{ kind := "", name := "" }⟩
  have hpages : ∀ id, ∃ spec rest, id ∈ ids → a.entities id = some spec ∧
      kg.pageOf id = .ok (some (slug spec.name ++ ".md",
        frontmatter id spec.kind spec.name spec.aliases ++ rest)) ∧
      wikilinks (frontmatter id spec.kind spec.name spec.aliases ++ rest)
        = (nodeTexts (entityNode spec)).flatMap wikilinks
          ++ (kg.linkings id).flatMap Linking.wikilinks ∧
      ∀ link ∈ kg.linkings id, (a.entities link.object).isSome := by
    intro id
    by_cases hid : id ∈ ids
    · obtain ⟨spec, hspec⟩ := Option.isSome_iff_exists.mp ((hknown id).mp hid)
      obtain ⟨rest, hpage⟩ := pageOf_eq hs hl hspec
      exact ⟨spec, rest, fun _ => ⟨hspec, hpage⟩⟩
    · exact ⟨{ kind := "", name := "" }, "", fun h => absurd h hid⟩
  choose spec rest hfacts using hpages
  have hobject : ∀ id ∈ ids, ∀ link ∈ kg.linkings id, link.object ∈ ids :=
    fun id hid link hlink => (hknown _).mpr ((hfacts id hid).2.2.2 link hlink)
  have hname : ∀ id ∈ ids, (kg.currentName id).map slug = some (slug (spec id).name) := by
    intro id hid
    rw [currentName_eq hs hl, (hfacts id hid).1]
    rfl
  have hperm := StableSort.perm_sortBy EntityId.toHex ids
  refine ⟨ids, SortedAssoc.ofEntries ((StableSort.sortBy EntityId.toHex ids).map (fun id =>
    (slug (spec id).name ++ ".md",
      frontmatter id (spec id).kind (spec id).name (spec id).aliases ++ rest id))), n, ?_, ?_⟩
  · intro rounds hrounds
    refine ⟨hlist rounds hrounds, ?_⟩
    rw [render, hlist rounds hrounds, Option.map_some, ok_bind]
    exact congrArg some (renderIds_ok [] (fun id hid => (hfacts id (hperm.mem_iff.mp hid)).2.1))
  · rw [projects_iff hperm hnodup (fun id hid => (hfacts id hid).2.1)
      (fun id _ id' _ htext => frontmatter_inj htext)
      (fun id hid => (hfacts id hid).2.2.1) hobject]
    simp only [String.append_left_inj, List.flatMap_eq_nil_iff]
    constructor
    · intro h
      obtain ⟨hinj, hall⟩ := h
      refine ⟨⟨?_, ?_⟩, ?_, ?_⟩
      · intro id hid id' hid' hsame
        rw [hname id hid, hname id' hid'] at hsame
        exact hinj id hid id' hid' (Option.some.inj hsame)
      · intro id hid link hlink
        rw [hname _ (hobject id hid link hlink), (hall id hid).2 link hlink]
      · intro id hid node hnode
        rw [getEntity_eq hs hl.refines, (hfacts id hid).1] at hnode
        cases hnode
        exact (hall id hid).1.1
      · intro id hid
        exact (hall id hid).1.2
    · intro h
      obtain ⟨hapart, hnone⟩ := h
      refine ⟨?_, ?_⟩
      · intro id hid id' hid' hsame
        exact hapart.distinct id hid id' hid' (by rw [hname id hid, hname id' hid', hsame])
      · intro id hid
        refine ⟨⟨hnone.node id hid _ ?_, hnone.relation id hid⟩, ?_⟩
        · rw [getEntity_eq hs hl.refines, (hfacts id hid).1]
          rfl
        · intro link hlink
          have hslug := hapart.targets id hid link hlink
          rw [hname _ (hobject id hid link hlink)] at hslug
          exact Option.some.inj hslug

/-- **The Markdown projection, and when it loses a page or a link.** Of every graph that a
session reaches, the projection has exactly one page for each entity, and the wikilinks of
each page are one for each of the entity's relations and name the pages of their objects, if
and only if `SlugsApart` and `NoStrayLinks` hold. -/
theorem render_projects_iff {s₀ : S} {kg₀ : KnowledgeGraph S} (hnew : new s₀ = .ok kg₀)
    (steps : List Step) (hown : Session.opensOwn { graph := kg₀ } steps)
    (hs : Sound (Session.run { graph := kg₀ } steps).graph.log) :
    let kg := (Session.run { graph := kg₀ } steps).graph
    ∃ ids pages n, (∀ rounds ≥ n, kg.entityIds rounds = some (.ok ids) ∧
        kg.render rounds = some (.ok pages)) ∧
      (Projects kg ids pages ↔ SlugsApart kg ids ∧ NoStrayLinks kg ids) := by
  intro kg
  obtain ⟨a, hl⟩ := ((Session.linkedInv_new hnew).run steps hs hown).graph
  exact render_of_linked hs hl

end KnowledgeGraph

open scoped CidFormat AsciiText

/-- Two entities, one with an alias and an attribute, and a relation; then the object is
stored again under a different spelling of its name, which the slug does not tell from the
first. -/
def samplePages : List Step :=
  [.call (.addEntity { kind := "person", name := "Ada", aliases := ["Countess"],
                       attrs := ⟨[("born", "[1815]")], by decide⟩ }),
    .call (.addEntity { kind := "machine", name := "Engine" }),
    .call (.addRelation (.of "person" "Ada") "designed" (.of "machine" "Engine") F32.one []),
    .call (.addEntity { kind := "machine", name := " ENGINE" })]

theorem render_projects_iff_samplePages :
    ∃ kg₀, KnowledgeGraph.new ({} : MemStore) = .ok kg₀ ∧
      Session.opensOwn { graph := kg₀ } samplePages = true ∧
      Sound (Session.run { graph := kg₀ } samplePages).graph.log ∧
      ((Session.run { graph := kg₀ } samplePages).graph.linkings (.of "person" "Ada")).map
          KnowledgeGraph.Linking.name = ["Engine"] ∧
      (Session.run { graph := kg₀ } samplePages).graph.currentName (.of "machine" "Engine")
        = some " ENGINE" ∧
      ∃ ids pages rounds,
        (Session.run { graph := kg₀ } samplePages).graph.render rounds = some (.ok pages) ∧
        (KnowledgeGraph.Projects (Session.run { graph := kg₀ } samplePages).graph ids pages ↔
          KnowledgeGraph.SlugsApart (Session.run { graph := kg₀ } samplePages).graph ids ∧
            KnowledgeGraph.NoStrayLinks (Session.run { graph := kg₀ } samplePages).graph ids) := by
  have hrun : (match KnowledgeGraph.new ({} : MemStore) with
      | .ok kg₀ => Session.opensOwn { graph := kg₀ } samplePages &&
          decide (Sound (Session.run { graph := kg₀ } samplePages).graph.log) &&
          decide (((Session.run { graph := kg₀ } samplePages).graph.linkings
            (.of "person" "Ada")).map KnowledgeGraph.Linking.name = ["Engine"]) &&
          decide ((Session.run { graph := kg₀ } samplePages).graph.currentName
            (.of "machine" "Engine") = some " ENGINE")
      | .error _ => false) = true := by decide +kernel
  split at hrun
  · next kg₀ hnew =>
    simp only [Bool.and_eq_true, decide_eq_true_eq] at hrun
    obtain ⟨⟨⟨hown, hs⟩, hname⟩, hnow⟩ := hrun
    obtain ⟨ids, pages, n, hn, hiff⟩ :=
      KnowledgeGraph.render_projects_iff hnew samplePages hown hs
    exact ⟨kg₀, hnew, hown, hs, hname, hnow, ids, pages, n, (hn n le_rfl).2, hiff⟩
  · cases hrun

/-- Two kinds of things of one name. -/
def namesakes : List Step :=
  [.call (.addEntity { kind := "person", name := "Ada" }),
    .call (.addEntity { kind := "machine", name := "Ada" })]

theorem listed_of_length {α : Type} {n : Nat} {x : Option (Except KError (List α))}
    (h : x.map (Except.map List.length) = some (.ok n)) : ∃ l, x = some (.ok l) ∧ l.length = n := by
  obtain ⟨r, rfl, hr⟩ := Option.map_eq_some_iff.mp h
  cases r with
  | error e => cases hr
  | ok l => exact ⟨l, rfl, Except.ok.inj hr⟩

/-- The second page replaces the first. -/
theorem not_render_projects :
    ¬ ∀ (kg₀ : KnowledgeGraph MemStore) (steps : List Step),
      KnowledgeGraph.new ({} : MemStore) = .ok kg₀ →
      Session.opensOwn { graph := kg₀ } steps →
      Sound (Session.run { graph := kg₀ } steps).graph.log →
      ∀ (rounds : Nat) (ids : List EntityId) (pages : List (String × String)),
        (Session.run { graph := kg₀ } steps).graph.entityIds rounds = some (.ok ids) →
        (Session.run { graph := kg₀ } steps).graph.render rounds = some (.ok pages) →
        KnowledgeGraph.Projects (Session.run { graph := kg₀ } steps).graph ids pages := by
  intro h
  have hrun : (match KnowledgeGraph.new ({} : MemStore) with
      | .ok kg₀ => Session.opensOwn { graph := kg₀ } namesakes &&
          decide (Sound (Session.run { graph := kg₀ } namesakes).graph.log) &&
          decide (((Session.run { graph := kg₀ } namesakes).graph.entityIds 4).map
            (Except.map List.length) = some (.ok 2)) &&
          decide (((Session.run { graph := kg₀ } namesakes).graph.render 4).map
            (Except.map List.length) = some (.ok 1))
      | .error _ => false) = true := by decide +kernel
  split at hrun
  · next kg₀ hnew =>
    simp only [Bool.and_eq_true, decide_eq_true_eq] at hrun
    obtain ⟨⟨⟨hown, hs⟩, htwo⟩, hone⟩ := hrun
    obtain ⟨ids, hids, hlen⟩ := listed_of_length htwo
    obtain ⟨pages, hrender, hlen'⟩ := listed_of_length hone
    have hcount := (h kg₀ namesakes hnew hown hs 4 ids pages hids hrender).count
    omega
  · cases hrun

end Ipfrs.Knowledge
