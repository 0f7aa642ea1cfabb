import NaturalTemplate.Markup.Node

/-!
# Writing nodes

A document that was read and not changed is written as it was.
-/
namespace NaturalTemplate.Markup

def Attribute.render (a : Attribute) : String :=
  a.leading ++ a.name ++
    match a.value with
    | none => ""
    | some value =>
      a.operator ++
        match a.quote with
        | .double => "\"" ++ value ++ "\""
        | .single => "'" ++ value ++ "'"
        | .unquoted | .none => value

def Tag.render (t : Tag) : String :=
  "<" ++ t.name ++ String.join (t.attributes.map Attribute.render) ++ t.trailing ++
    if t.selfClosing then "/>" else ">"

def EndTag.render : EndTag → String
  | explicit raw => raw
  | implicit | void => ""

namespace Node

mutual

def render : Node → String
  | element tag children endTag => tag.render ++ renderAll children ++ endTag.render
  | text content _ => content
  | comment content _ => "<!--" ++ content ++ "-->"
  | cdata content _ => "<![CDATA[" ++ content ++ "]]>"
  | docType content _ => "<!" ++ content ++ ">"
  | instruction content _ => "<?" ++ content ++ "?>"
  | unmatched raw _ => raw

def renderAll : List Node → String
  | [] => ""
  | n :: ns => n.render ++ renderAll ns

end

theorem renderAll_append (ns ms : List Node) :
    renderAll (ns ++ ms) = renderAll ns ++ renderAll ms := by
  induction ns with
  | nil => simp [renderAll]
  | cons n ns ih => simp [renderAll, ih, String.append_assoc]

end Node

def Document.render (d : Document) : String := Node.renderAll d.nodes

end NaturalTemplate.Markup
