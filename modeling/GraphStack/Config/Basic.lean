import GraphStack.Fault
import GraphStack.Text.Outline
import GraphStack.Text.Quoted

/-!
# Configuration of a node budget

A configuration names a budget in the log and may limit the nodes that live at one time. A limit
of zero is refused wherever a configuration is used: when it is read from a text and when a budget
is built from it.
-/

namespace GraphStack

structure Config where
  label : String
  maxLiveNodes : Option UInt64
  deriving DecidableEq, Repr

namespace Config

def defaultLabel : String := "gss"

def standard : Config := ⟨defaultLabel, none⟩

def labelKey : String := "label"

def limitKey : String := "max_live_nodes"

def fieldNames : List String := [labelKey, limitKey]

def typeName : String := "struct GssConfig"

def zeroLimitMessage : String := "max_live_nodes must be at least 1"

def zeroLimitHelp : String := "omit the key for an unlimited budget"

def hasZeroLimit (c : Config) : Bool := c.maxLiveNodes == some 0

def outline (c : Config) : Outline :=
  .record "GssConfig"
    [(labelKey, .atom (Text.quoted c.label)),
     (limitKey, .ofOption (c.maxLiveNodes.map fun n => .ofNat n.toNat))]

/-- What is read of a document before the defaults are filled in. -/
structure Draft where
  label : Option String
  limit : Option (Option UInt64)
  deriving DecidableEq, Repr

def Draft.empty : Draft := ⟨none, none⟩

def Draft.finish (d : Draft) : Config := ⟨d.label.getD defaultLabel, d.limit.getD none⟩

/-- The byte offset of the first occurrence of `part` in `text`, if there is one. -/
def findBytes (part : List Char) : List Char → Nat → Option Nat
  | [], offset => if part.isEmpty then some offset else none
  | c :: cs, offset =>
    if part.isPrefixOf (c :: cs) then some offset else findBytes part cs (offset + c.utf8Size)

/-- The span of the limit's key: its first occurrence in the text, or the start of the text. -/
def limitKeySpan (text : String) : Span :=
  let start := (findBytes limitKey.toList text.toList 0).getD 0
  ⟨start, start + limitKey.utf8ByteSize⟩

def zeroLimitFault (source : Source) : Fault :=
  { kind := .config, message := zeroLimitMessage, help := some zeroLimitHelp,
    source := some source, span := some (limitKeySpan source.text), causes := [] }

/-- The configuration read from a source, unless its limit is zero. -/
def validated (source : Source) (c : Config) : Except Fault Config :=
  if c.hasZeroLimit then .error (zeroLimitFault source) else .ok c

/-- A document that its format's reader refuses; the reader's message is also the cause. -/
def malformed (source : Source) (message : String) (span : Span) : Fault :=
  { kind := .config, message, help := none, source := some source, span := some span,
    causes := [message] }

end Config
end GraphStack
