import NaturalTemplate.Processor.Dialect
import NaturalTemplate.Standard.Content
import NaturalTemplate.Standard.Scope
import NaturalTemplate.Standard.Structure

/-!
# The standard dialect

The processors for the attributes `th:each`, `th:if`, `th:text` and so on. An element that several
of them match is repeated before it is tested, tested before its attributes are changed, and its
body is changed last.
-/
namespace NaturalTemplate.Standard

/-- The attributes that can be set to a value one by one. -/
def valueAttributes : List String :=
  ["href", "src", "id", "class", "value", "title", "alt", "name", "action"]

/-- The attributes that are there or not. -/
def flagAttributes : List String :=
  ["async", "autofocus", "autoplay", "checked", "controls", "declare", "default", "defer",
    "disabled", "formnovalidate", "hidden", "ismap", "loop", "multiple", "novalidate", "nowrap",
    "open", "pubdate", "readonly", "required", "reversed", "scoped", "seamless", "selected"]

def processors : List Processor :=
  [.forAttribute "each" 200 each,
    .forAttribute "switch" 250 switch,
    .forAttribute "case" 275 case,
    .forAttribute "if" 300 (conditional true),
    .forAttribute "unless" 400 (conditional false),
    .forAttribute "object" 500 selectObject,
    .forAttribute "with" 600 bindVariables,
    .forAttribute "attr" 700 setAttributes,
    .forAttribute "attrprepend" 800 (joinAttributes fun before extra => extra ++ before),
    .forAttribute "attrappend" 900 (joinAttributes fun before extra => before ++ extra)] ++
  valueAttributes.map (fun name => .forAttribute name 1000 (setOne name)) ++
  flagAttributes.map (fun name => .forAttribute name 1000 (setFlag name)) ++
  [.forAttribute "inline" 1000 inline,
    .forAttribute "classappend" 1100 (appendTo "class" ⟨" ", []⟩),
    .forAttribute "styleappend" 1100 (appendTo "style" ⟨"; ", [';']⟩),
    .forAttribute "text" 1300 (setBody true),
    .forAttribute "utext" 1400 (setBody false),
    .forAttribute "remove" 1600 remove,
    .forElement "block" 100000 unwrap]

def dialect : Dialect := ⟨"Standard", "th", 1000, processors⟩

end NaturalTemplate.Standard
