import FpgaMiner.ClockedCircuitProofs
import FpgaMiner.FoldedPipelineProofs
import FpgaMiner.BitSliceProofs
import FpgaMiner.Sha256Proofs
import FpgaMiner.ShaFunctionsProofs
import FpgaMiner.TransformProofs
import FpgaMiner.FpgaminerTopProofs
import FpgaMiner.FlushProofs
import FpgaMiner.SearchProofs
import FpgaMiner.MinerTopProofs
import FpgaMiner.ControlProofs
import FpgaMiner.BusReadProofs
import FpgaMiner.LoadProofs
import FpgaMiner.NonceRangeProofs
import FpgaMiner.ResultProofs
import FpgaMiner.ResultReadProofs
import FpgaMiner.MinerDriverProofs
import FpgaMiner.DriverLoadProofs
import FpgaMiner.GetworkProofs
import FpgaMiner.DigitStringProofs
import FpgaMiner.Sha256HashProofs
import FpgaMiner.JavaSha256Proofs
import FpgaMiner.ProcMsgProofs
import FpgaMiner.HeaderHashProofs
import FpgaMiner.CBufferProofs
import FpgaMiner.LineEditorProofs
import FpgaMiner.PartialRunProofs
import FpgaMiner.Lab2Proofs
import FpgaMiner.Lab2EditorProofs
import FpgaMiner.Lab2BoundsProofs
import FpgaMiner.Lab2CursorProofs
import FpgaMiner.Lab2RowsProofs
import FpgaMiner.Lab2MessageProofs
import FpgaMiner.Lab1Proofs
import FpgaMiner.Lab3Proofs
import FpgaMiner.ListGroupsProofs
import FpgaMiner.WordSwapProofs
import FpgaMiner.HexStringProofs
import FpgaMiner.SegmentsProofs
import FpgaMiner.ResponseProofs
import FpgaMiner.Sha256BytesProofs
import FpgaMiner.BlockHeaderProofs
import FpgaMiner.Sha256WindowProofs
import FpgaMiner.HashBuffersProofs
import FpgaMiner.ShortMantissaProofs
import FpgaMiner.CompactProofs
import FpgaMiner.CpuMinerProofs
import FpgaMiner.FpgaShareProofs
import FpgaMiner.HashTreeProofs
import FpgaMiner.CodecProofs
import FpgaMiner.SerializeProofs
import FpgaMiner.ScriptProofs
import FpgaMiner.TransactionProofs
import FpgaMiner.MerkleProofs
import FpgaMiner.PartialMerkleProofs
import FpgaMiner.OrderStatisticProofs
import FpgaMiner.RetargetProofs
import FpgaMiner.BlockProofs
import FpgaMiner.TrimmedListProofs
import FpgaMiner.CoinsProofs
import FpgaMiner.CoinsDiskProofs
import FpgaMiner.ConnectBlockProofs
import FpgaMiner.DisconnectBlockProofs
import FpgaMiner.ChainstateProofs
import FpgaMiner.SupplyProofs
import FpgaMiner.CoinsCacheProofs
import FpgaMiner.RpcMiningProofs
