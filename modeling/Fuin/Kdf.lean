import Fuin.Store.Database

/-! # Keys derived from the password

`kdf_derive_master_key` and `kdf_derive_subkeys`: the password and the salt give the master key, of
which only the four subkeys are kept. -/

namespace Fuin.Kdf

open Fuin.Utils Fuin.Crypto Fuin.Lib.Program Fuin.Store.Database

/-- `kdf_subkeys_t`. -/
structure Subkeys where
  kekEnc : Block 32
  kekAudit : Block 32
  kekToken : Block 32
  kekMeta : Block 32
  deriving DecidableEq

/-- The subkeys of a master key. -/
def subkeysOf (so : Sodium) (master : Block 32) : Subkeys where
  kekEnc := so.kdf master 1
  kekAudit := so.kdf master 2
  kekToken := so.kdf master 3
  kekMeta := so.kdf master 4

/-- `kdf_generate_salt`. -/
def generateSalt : Sql (Block 16) := do
  Sql.lib .crypto
  Sql.random 16

/-- `kdf_derive_master_key`. -/
def deriveMasterKey (so : Sodium) (password : CString) (salt : Block 16) : Sql (Block 32) := do
  Sql.libs [.crypto, .crypto]
  return so.pwhash password.bytes salt

/-- `kdf_derive_subkeys`. -/
def deriveSubkeys (so : Sodium) (master : Block 32) : Sql Subkeys := do
  Sql.libs [.crypto, .crypto, .crypto, .crypto, .crypto]
  return subkeysOf so master

end Fuin.Kdf
