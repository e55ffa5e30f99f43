import RayaFfi.Value
import RayaFfi.Os
import RayaFfi.Abi
import RayaFfi.Crypto.ConstantTimeEqual
import RayaFfi.Crypto.Hash
import RayaFfi.Crypto.RandomBytes
import RayaFfi.Fs.Ops
import RayaFfi.Fs.Native
import RayaFfi.Fs.Store
import RayaFfi.Contract
import RayaFfi.Arrays
