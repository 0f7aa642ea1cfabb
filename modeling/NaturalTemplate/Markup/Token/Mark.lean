/-!
# Marks

The character sequences that open and close the constructs of markup.
-/
namespace NaturalTemplate.Markup.Mark

def commentStart : List Char := ['<', '!', '-', '-']

def commentEnd : List Char := ['-', '-', '>']

def parserCommentStart : List Char := ['<', '!', '-', '-', '/', '*']

def parserCommentEnd : List Char := ['*', '/', '-', '-', '>']

def blockStart : List Char := ['<', '!', '-', '-', '/', '*', '/']

def blockEnd : List Char := ['/', '*', '/', '-', '-', '>']

def cdataStart : List Char := ['<', '!', '[', 'C', 'D', 'A', 'T', 'A', '[']

def cdataEnd : List Char := [']', ']', '>']

/-- Read without regard to case; only its first two characters are set apart from the content. -/
def docTypeStart : List Char := ['<', '!', 'D', 'O', 'C', 'T', 'Y', 'P', 'E']

def declarationStart : List Char := ['<', '!']

def instructionStart : List Char := ['<', '?']

def instructionEnd : List Char := ['?', '>']

def endTagStart : List Char := ['<', '/']

def tagEnd : List Char := ['>']

end NaturalTemplate.Markup.Mark
