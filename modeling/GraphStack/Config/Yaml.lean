import GraphStack.Config.Basic
import GraphStack.Yaml.Document
import GraphStack.Yaml.Render

/-!
# Configurations in YAML

`Config.ofYaml` reads a mapping whose keys are among `label` and `max_live_nodes`; an empty document
or an empty plain scalar is the standard configuration. A label is any scalar, with its text as
written; the limit is a natural number or null. Entries are taken in their order, so of two faults
the first one in the text wins, and a fault of the syntax counts where it is met. `Config.toYaml`
writes a configuration as a block mapping.
-/

namespace GraphStack.Config

open GraphStack.Yaml

inductive Refusal
  | unreadable (f : Failure)
  /-- The entry at a mark does not fit; a value is named by its key. -/
  | unfit (m : Mismatch) (key : Option String) (mark : Mark)
  | severalDocuments
  | cutOff
  deriving DecidableEq, Repr

namespace Refusal

def wording : Wording := ⟨"unit value", Layout.pointed⟩

def message : Refusal → String
  | unreadable f => f.message
  | unfit m key mark =>
    Failure.placed ((key.elim "" (· ++ ": ")) ++ m.message wording) mark
  | severalDocuments => "deserializing from YAML containing more than one document is not supported"
  | cutOff => "EOF while parsing a value"

def span : Refusal → Span
  | unreadable f => .point f.mark.index
  | unfit _ _ mark => .point mark.index
  | severalDocuments => .empty
  | cutOff => .empty

end Refusal

def entryMismatch (e : Entry) (expected : String) : Mismatch :=
  match e.item with
  | .scalar s => s.mismatch expected
  | .mappingStart => .wrongType .mapping expected
  | _ => .wrongType .sequence expected

/-- What ended the entries of a document. -/
def cutShort (d : Document) : Refusal := d.failure.elim .cutOff .unreadable

/-- The name of a key in messages; an alias has none. -/
def keyName (key : Entry) (text : String) : String := if key.aliased then "?" else text

def labelEntry (name : String) (e : Entry) : Except Refusal String :=
  match e.item with
  | .scalar s => .ok s.text
  | _ => .error (.unfit (entryMismatch e "a string") name e.mark)

def countEntry (name : String) (e : Entry) : Except Refusal UInt64 :=
  let refusal := Refusal.unfit (entryMismatch e "usize") name e.mark
  match e.item with
  | .scalar s => s.count?.elim (.error refusal) .ok
  | _ => .error refusal

/-- A plain scalar can be null, unless it has a tag other than the null tag; under that tag it must
be. This last fault is one of the mapping that begins at `start`. -/
def limitEntry (start : Mark) (name : String) (e : Entry) : Except Refusal (Option UInt64) :=
  let some? := (countEntry name e).map some
  match e.item with
  | .scalar s =>
    if !s.isPlain then some?
    else
      match s.tag with
      | none => if s.text = "" || isNull s.text then .ok none else some?
      | some tag =>
        if tag = coreTag "null" then
          if isNull s.text then .ok none
          else .error (.unfit (.wrongValue (.text s.text) "null") none start)
        else some?
  | _ => some?

def readFields (doc : Document) (start : Mark) (d : Draft) : List Entry → Except Refusal Draft
  | [] => .error (cutShort doc)
  | key :: rest =>
    match key.item with
    | .mappingEnd => .ok d
    | .scalar s =>
      let duplicate := Refusal.unfit (.duplicateField s.text) none start
      if s.text = labelKey then
        if d.label.isSome then .error duplicate
        else
          match rest with
          | [] => .error (cutShort doc)
          | value :: rest =>
            match labelEntry (keyName key s.text) value with
            | .error e => .error e
            | .ok label => readFields doc start { d with label := some label } rest
      else if s.text = limitKey then
        if d.limit.isSome then .error duplicate
        else
          match rest with
          | [] => .error (cutShort doc)
          | value :: rest =>
            match limitEntry start (keyName key s.text) value with
            | .error e => .error e
            | .ok limit => readFields doc start { d with limit := some limit } rest
      else .error (.unfit (.unknownField s.text fieldNames) none key.mark)
    | _ => .error (.unfit (entryMismatch key "field identifier") none key.mark)

def readEntries (doc : Document) : Except Refusal Draft :=
  match doc.entries with
  | [] => if doc.failure.isSome then .error (cutShort doc) else .ok .empty
  | e :: rest =>
    match e.item with
    | .mappingStart => readFields doc e.mark .empty rest
    | .scalar s =>
      if s.isPlain && s.text.isEmpty then .ok .empty
      else .error (.unfit (entryMismatch e typeName) none e.mark)
    | _ => .error (.unfit (entryMismatch e typeName) none e.mark)

def ofDocument (doc : Document) : Except Refusal Config :=
  match readEntries doc with
  | .error e => .error e
  | .ok d =>
    match doc.failure with
    | some f => .error (.unreadable f)
    | none => if doc.followed then .error .severalDocuments else .ok d.finish

def ofYamlNamed (name text : String) : Except Fault Config :=
  match ofDocument (.ofText text) with
  | .ok c => c.validated ⟨name, text⟩
  | .error refusal => .error (malformed ⟨name, text⟩ refusal.message refusal.span)

def yamlSourceName : String := "config.yaml"

def ofYaml (text : String) : Except Fault Config := ofYamlNamed yamlSourceName text

def toYaml (c : Config) : String :=
  let limit := c.maxLiveNodes.elim "null" fun n => toString n.toNat
  String.ofList
    (Render.field labelKey (Render.scalar c.label) ++ Render.field limitKey limit.toList)

end GraphStack.Config
