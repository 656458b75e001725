/-
Ipfrs.Knowledge.Project — the Markdown projection of the graph (`project.rs`).

Every entity becomes a page under the slug of its name. `RustFormat` leaves open what
the projection uses of Rust's standard library besides `RustText`: the Unicode tables
of `char` and the decimal text of an `f32`. What the wikilinks of a page need of them is
`RustFormat.Lawful`; nothing else rests on it.
-/
import Ipfrs.Knowledge.Graph

namespace Ipfrs.Knowledge

open Ipfrs.Core Ipfrs.Lib

/-- Characters and numbers in the standard library. -/
class RustFormat where
  /-- `char::is_alphanumeric`. -/
  isAlphanumeric : Char → Bool
  /-- `char::to_lowercase`. -/
  charToLowercase : Char → List Char
  /-- `Display` for `f32`, from its bits. -/
  displayF32 : UInt32 → String

/-- No lower-case form of an alphanumeric character is a bracket or a line break, and no
text of a number has a bracket. -/
class RustFormat.Lawful [RustFormat] : Prop where
  plain_lowercase : ∀ c, RustFormat.isAlphanumeric c = true →
    ∀ d ∈ RustFormat.charToLowercase c, d ≠ '[' ∧ d ≠ ']' ∧ d ≠ '\n'
  plain_display : ∀ w, '[' ∉ (RustFormat.displayF32 w).toList ∧
    ']' ∉ (RustFormat.displayF32 w).toList

namespace AsciiText

theorem plain_toLower {c : Char} (hc : c.isAlphanum = true) :
    c.toLower ≠ '[' ∧ c.toLower ≠ ']' ∧ c.toLower ≠ '\n' := by
  delta Char.isAlphanum Char.isAlpha Char.isUpper Char.isLower Char.isDigit at hc
  delta Char.toLower
  simp only [ne_eq, Char.ext_iff]
  grind

/-- ASCII characters, and the texts of the weights 0 and 1. -/
scoped instance : RustFormat where
  isAlphanumeric c := c.isAlphanum
  charToLowercase c := [c.toLower]
  displayF32 w := if w = F32.one then "1" else "0"

scoped instance : RustFormat.Lawful where
  plain_lowercase c hc d hd := by
    rw [List.mem_singleton.mp hd]
    exact plain_toLower hc
  plain_display w := by
    simp only [RustFormat.displayF32]
    split <;> decide

end AsciiText

/-- A byte as two hexadecimal digits. -/
def hexPair (b : UInt8) : List Char :=
  [Nat.digitChar (b.toNat / 16), Nat.digitChar (b.toNat % 16)]

/-- `EntityId::to_hex`. -/
def EntityId.toHex (id : EntityId) : String := String.ofList (id.bytes.flatMap hexPair)

section

variable [RustText] [RustFormat]

/-- One character of `slug`: the text so far, and whether it ends in a dash for
characters that were left out. -/
def slugChar (st : List Char × Bool) (ch : Char) : List Char × Bool :=
  if RustFormat.isAlphanumeric ch then (st.1 ++ RustFormat.charToLowercase ch, false)
  else if !st.2 && !st.1.isEmpty then (st.1 ++ ['-'], true)
  else st

/-- `slug`. -/
def slug (name : String) : String :=
  let out := ((RustText.trim name).toList.foldl slugChar ([], false)).1
  let out := (out.reverse.dropWhile (fun c => c == '-')).reverse
  if out.isEmpty then "entity" else String.ofList out

end

namespace KnowledgeGraph

/-- The head of a page: the frontmatter and the title. -/
def frontmatter (id : EntityId) (kind name : String) (aliases : List String) : String :=
  "---\n" ++ ("id: " ++ id.toHex ++ "\n") ++ ("kind: " ++ kind ++ "\n")
    ++ (if aliases.isEmpty then "" else "aliases: [" ++ ", ".intercalate aliases ++ "]\n")
    ++ "---\n" ++ ("\n# " ++ name ++ "\n\n")

/-- The attributes of a page. -/
def attributesText (attrs : StringMap) : String :=
  if attrs.1.isEmpty then ""
  else "## Attributes\n\n"
    ++ String.join (attrs.1.map (fun e => "- **" ++ e.1 ++ "**: " ++ e.2 ++ "\n")) ++ "\n"

/-- The relations of a page. -/
def relationsText (lines : List String) : String :=
  if lines.isEmpty then "" else "## Relations\n\n" ++ String.join lines ++ "\n"

variable [CidCrate] [RustText] [RustFormat] {S : Type} [BlockStore S]

/-- The name a wikilink is made of. -/
def targetName : KnowledgeNode → String
  | .entity _ _ name _ _ _ => name
  | _ => "unknown"

/-- The line of a relation, with the wikilink to its object. -/
def relationLine (store : S) (rel : Cid × KnowledgeNode) : Except KError String :=
  match rel.2 with
  | .relation _ predicate object _ weight => do
      let target := targetName (← getNode store object)
      .ok ("- " ++ predicate ++ " → [[" ++ slug target ++ "]] (" ++ target ++ ") `w="
        ++ RustFormat.displayF32 weight ++ "`\n")
  | _ => .ok ""

/-- The key and the text of the page of an id; an id that is no entity has none. -/
def pageOf (kg : KnowledgeGraph S) (id : EntityId) : Except KError (Option (String × String)) := do
  match ← kg.getEntity id with
  | some (.entity _ kind name aliases attrs _) => do
      let rels ← kg.relationsOf id
      let lines ← collectOk (relationLine kg.store) rels
      .ok (some (slug name ++ ".md",
        frontmatter id kind name aliases ++ attributesText attrs ++ relationsText lines))
  | _ => .ok none

/-- The loop over the ids. -/
def renderIds (kg : KnowledgeGraph S) :
    List EntityId → List (String × String) → Except KError (List (String × String))
  | [], pages => .ok pages
  | id :: ids, pages => do
      match ← kg.pageOf id with
      | some (key, md) => renderIds kg ids (SortedAssoc.insert key md pages)
      | none => renderIds kg ids pages

/-- `render`, with `rounds` rounds for the listing of the entities. -/
def render (rounds : Nat) (kg : KnowledgeGraph S) :
    Option (Except KError (List (String × String))) :=
  (kg.entityIds rounds).map (fun r => do
    let ids ← r
    renderIds kg (StableSort.sortBy EntityId.toHex ids) [])

end KnowledgeGraph

open scoped AsciiText in
example : slug "  Foo/Bar  Baz " = "foo-bar-baz" := by decide

open scoped AsciiText in
example : slug "!!!" = "entity" := by decide

end Ipfrs.Knowledge
