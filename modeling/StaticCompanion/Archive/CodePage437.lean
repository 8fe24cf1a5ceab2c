import StaticCompanion.Bytes

namespace StaticCompanion.CodePage437

/-- The characters of the upper half, in order. -/
def upperHalf : List Char :=
  ("ÇüéâäàåçêëèïîìÄÅÉæÆôöòûùÿÖÜ¢£¥₧ƒ" ++
    "áíóúñÑªº¿⌐¬½¼¡«»░▒▓│┤╡╢╖╕╣║╗╝╜╛┐" ++
    "└┴┬├─┼╞╟╚╔╩╦╠═╬╧╨╤╥╙╘╒╓╫╪┘┌█▄▌▐▀" ++
    "αßΓπΣσµτΦΘΩδ∞φε∩≡±≥≤⌠⌡÷≈°∙·√ⁿ²■\u00a0").toList

def decodeByte (byte : UInt8) : Char :=
  if byte < 0x80 then Char.ofNat byte.toNat else (upperHalf[byte.toNat - 128]?).getD ' '

def decode (bytes : Bytes) : List Char := bytes.map decodeByte

end StaticCompanion.CodePage437
