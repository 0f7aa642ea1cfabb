import NaturalTemplate.Text.Alphabetic
import NaturalTemplate.Text.Blank
import NaturalTemplate.Text.Case

/-!
# Names in markup

Which characters make up the names of tags and attributes, and which elements HTML treats apart.
-/
namespace NaturalTemplate.Markup

/-- Elements that have no children and no end tag. -/
def voidNames : List String :=
  ["area", "base", "br", "col", "embed", "hr", "img", "input", "link", "meta", "param", "source",
    "track", "wbr"]

/-- Elements whose body is text whatever it looks like. -/
def rawTextNames : List String := ["script", "style"]

def isVoid (name : String) : Bool :=
  voidNames.any (Text.sameName name)

def isRawText (name : String) : Bool :=
  rawTextNames.any (Text.sameName name)

def isTagNameChar (c : Char) : Bool :=
  !Text.isBlank c && c != '>' && c != '/' && c != '<'

def isAttributeNameChar (c : Char) : Bool :=
  !Text.isBlank c && c != '=' && c != '>' && c != '/' && c != '"' && c != '\'' && c != '<'

end NaturalTemplate.Markup
