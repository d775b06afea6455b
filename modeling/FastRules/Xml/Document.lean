import FastRules.Rule.Basic
import FastRules.Rule.Numbers

/-!
# XML documents

Elements as the XML library hands them out: a name, attributes, the text of the first piece of
character data and the child elements. How documents become text and numbers are read is up to the
library; `PugiXml` is what the callers use of it, and `Restores` and `ReadsValues` are what they
rely on.
-/

namespace FastRules

/-- An element. A document is an element without a name whose children are the top-level
elements. -/
inductive XmlNode
  | element (name : String) (attributes : List (String × String)) (text : String)
      (children : List XmlNode)

namespace XmlNode

def name : XmlNode → String
  | element name _ _ _ => name

/-- All attributes, in order. -/
def attributes : XmlNode → List (String × String)
  | element _ attributes _ _ => attributes

/-- `text().as_string("")`. -/
def text : XmlNode → String
  | element _ _ text _ => text

/-- All child elements, in order. -/
def elements : XmlNode → List XmlNode
  | element _ _ _ children => children

/-- `attribute(key)`, if there is one. -/
def attribute? (key : String) (node : XmlNode) : Option String :=
  node.attributes.lookup key

/-- `child(name)`, if there is one. -/
def child? (name : String) (node : XmlNode) : Option XmlNode :=
  node.elements.find? fun child ↦ child.name = name

/-- `children(name)`. -/
def children (name : String) (node : XmlNode) : List XmlNode :=
  node.elements.filter fun child ↦ child.name = name

/-- An element with a text, which is set as a C string, and nothing else. -/
def ofText (name text : String) : XmlNode :=
  element name [] (cStr text) []

/-- A document with one top-level element. -/
def document (root : XmlNode) : XmlNode :=
  element "" [] "" [root]

/-- The text of a Boolean value. -/
def boolText (b : Bool) : String :=
  if b then "true" else "false"

@[simp] theorem name_ofText (name text : String) : (ofText name text).name = name := rfl

@[simp] theorem text_ofText (name text : String) : (ofText name text).text = cStr text := rfl

@[simp] theorem child?_document (root : XmlNode) (name : String) :
    (document root).child? name = if root.name = name then some root else none := by
  rw [child?, document, elements, List.find?_singleton]
  simp

end XmlNode

/-- What is used of the XML library. -/
structure PugiXml where
  /-- `xml_document::save`, with the text of one level of indentation. -/
  save : String → XmlNode → String
  /-- `xml_document::load_string`; an error has a description. -/
  load : String → Except String XmlNode
  /-- `as_int` of a text that is there. -/
  asInt : String → Int
  /-- `as_bool` of a text that is there. -/
  asBool : String → Bool

namespace PugiXml

/-- The indentation of `save` without one being given. -/
def defaultIndent : String :=
  "\t"

/-- The library loads what it saves. -/
def Restores (lib : PugiXml) (indent : String) (doc : XmlNode) : Prop :=
  lib.load (lib.save indent doc) = .ok doc

/-- The library reads the values that it writes. -/
structure ReadsValues (lib : PugiXml) : Prop where
  asInt_toString : ∀ n, toInt32 n = n → lib.asInt (toString n) = n
  asBool_boolText : ∀ b, lib.asBool (XmlNode.boolText b) = b

variable (lib : PugiXml)

/-- `attribute(key).as_int(fallback)`. -/
def intAttribute (key : String) (fallback : Int) (node : XmlNode) : Int :=
  (node.attribute? key).elim fallback lib.asInt

/-- `attribute(key).as_bool(fallback)`. -/
def boolAttribute (key : String) (fallback : Bool) (node : XmlNode) : Bool :=
  (node.attribute? key).elim fallback lib.asBool

/-- `text().as_int(fallback)`. -/
def intText (fallback : Int) (node : XmlNode) : Int :=
  if node.text = "" then fallback else lib.asInt node.text

/-- `text().as_bool(fallback)`. -/
def boolText (fallback : Bool) (node : XmlNode) : Bool :=
  if node.text = "" then fallback else lib.asBool node.text

end PugiXml

end FastRules
