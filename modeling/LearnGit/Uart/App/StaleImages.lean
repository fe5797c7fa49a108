import LearnGit.Uart.App.Images

/-!
# `LearnGit.Uart.App.StaleImages`: the search for old versions of an image

`images_check_and_update` removes an old version of an image that it asks for. It looks for the last
underscore of the name from the end of `image_name` on, cuts the name there and compares it with an
entry of the directory. `Images` has what comes of it. Here is which indices the search computes and
which entries `unlink` is called with.
-/

set_option autoImplicit false

namespace LearnGit.Uart.App

open LearnGit.Uart.Link (Byte)

/-- The indices of `image_name` that the search computes when `pch` is at this index. The test
`pch >= image_name` comes before `pch--`, so that it goes on at the index 0. -/
def searchIndices (imageName : List Byte) : Nat → List Int
  | 0 => [-1]
  | pch + 1 =>
    (pch : Int) :: if imageName.getD pch 0 = UNDERSCORE then [] else searchIndices imageName pch

/-- The entries that `unlink` is called with when the image is asked for, or `none` where `req_image`
or the `memset` of the search stores outside of its array. `strncmp` is 0 for an entry that begins
with the name that is left. -/
def unlinkCalls (imageName : List Byte) (flag : Byte) (dp : List Name) : Option (List Name) := do
  let _ ← Messages.reqImage (cString imageName) flag
  let pch := searchUnderscore imageName (MAX_NAME_LENGTH - 1)
  if pch = 0 then return []
  else if pch < 0 then none
  else
    match dp with
    | [] => return []
    | de :: _ => return if (cString (imageName.take pch.toNat)).isPrefixOf de.bytes then [] else [de]

end LearnGit.Uart.App
